import AdaptiveMqtt.Dynsec.Handle

/-!
# Control messages

A message on `$CONTROL/dynamic-security/v1` has an array of commands. `dynsec__handle_control`
goes through it: commands that change the store, commands that only read it, and elements that
are no command. The correlation data of a command stays for what follows it and is no command.
-/

namespace AdaptiveMqtt.Dynsec

open Lib Security

variable [JsonLibrary] (crypto : Crypto)

/-! ## Commands that read -/

def grouplistAllToJson (s : Store) (base : List Ref) : Option Json := do
  let jGroups ← base.mapM fun e => do
    let group ← s.localGroups.get e.addr
    return Json.object ([(ascii "groupname", .string group.groupname)] ++ priorityField (priority e))
  return .array jGroups

def addClientToJson (s : Store) (verbose : Bool) (client : Client) : Option Json :=
  if verbose then do
    let jRoles ← rolelistAllToJson s client.rolelist
    let jGroups ← grouplistAllToJson s client.grouplist
    return .object (clientFields client ++ [(ascii "roles", jRoles), (ascii "groups", jGroups)])
  else some (.string client.username)

def addGroupToJson (s : Store) (verbose : Bool) (group : Group) : Option Json :=
  if verbose then do
    let jClients ← group.clientlist.mapM fun e => do
      let client ← s.localClients.get e.addr
      return Json.object [(ascii "username", .string client.username)]
    let jRoles ← rolelistAllToJson s group.rolelist
    return .object ([(ascii "groupname", .string group.groupname)]
      ++ textField "textname" group.textName ++ textField "textdescription" group.textDescription
      ++ [(ascii "clients", .array jClients), (ascii "roles", jRoles)])
  else some (.string group.groupname)

def addRoleToJson (verbose : Bool) (role : Role) : Option Json :=
  some (if verbose then roleToJson role else .string role.rolename)

/-- The loop of `listClients`, `listGroups` and `listRoles`: `i` objects have been passed. -/
def listLoop {α : Type} (read : α → Option Json) (offset : Int32) :
    List α → Int → Int → Option (List Json)
  | [], _, _ => some []
  | v :: rest, i, count =>
    if offset.toInt ≤ i then do
      let json ← read v
      if 0 ≤ count then
        if count - 1 ≤ 0 then return [json]
        return json :: (← listLoop read offset rest (i + 1) (count - 1))
      return json :: (← listLoop read offset rest (i + 1) count)
    else listLoop read offset rest (i + 1) count

def listData {α : Type} (name : String) (t : Table Addr α) (read : α → Option Json)
    (command : Json) : Option Json := do
  let items ← listLoop read (command.getInt "offset" 0) (t.entries.map Prod.snd) 0
    (command.getInt "count" (-1)).toInt
  return .object [(ascii "totalCount", .number (Int32.ofNat t.entries.length)),
    (ascii name, .array items)]

/-- `json_get_bool(command, "verbose", &verbose, true, false)`. -/
def readVerbose (command : Json) : Bool :=
  match command.getObjectItem "verbose" with
  | some (.bool verbose) => verbose
  | _ => false

def defaultAccessData (access : DefaultAccess) : Json :=
  let jAcl (type : String) (allow : Bool) :=
    Json.object [(ascii "acltype", .string (ascii type)), (ascii "allow", .bool allow)]
  .object [(ascii "acls", .array [jAcl "publishClientSend" access.publishCSend,
    jAcl "publishClientReceive" access.publishCRecv, jAcl "subscribe" access.subscribe,
    jAcl "unsubscribe" access.unsubscribe])]

/-- The commands that only read. -/
inductive Query where
  | getDefaultACLAccess | getClient | listClients | getGroup | listGroups | getAnonymousGroup
  | getRole | listRoles
  deriving DecidableEq, Repr

namespace Query

def all : List Query :=
  [getDefaultACLAccess, getClient, listClients, getGroup, listGroups, getAnonymousGroup, getRole,
    listRoles]

/-- The `"command"`. -/
def text : Query → String
  | getDefaultACLAccess => "getDefaultACLAccess"
  | getClient => "getClient"
  | listClients => "listClients"
  | getGroup => "getGroup"
  | listGroups => "listGroups"
  | getAnonymousGroup => "getAnonymousGroup"
  | getRole => "getRole"
  | listRoles => "listRoles"

def readOne {α : Type} (name : Except (Rc × String) Bytes) (find : Bytes → Option (Addr × α))
    (missing : Rc × String) (field : String) (read : α → Option Json) :
    Option (Except (Rc × String) Json) :=
  match name with
  | .error e => some (.error e)
  | .ok name =>
    match find name with
    | none => some (.error missing)
    | some (_, v) => (read v).map fun json => .ok (.object [(ascii field, json)])

/-- What the command replies: an error, or its data. -/
def process (json : Json) (s : Store) : Query → Option (Except (Rc × String) Json)
  | getDefaultACLAccess => some (.ok (defaultAccessData s.defaultAccess))
  | getClient =>
    readOne (readUsername json) s.clientsFind (Rc.success, "Client not found") "client"
      (addClientToJson s true)
  | listClients =>
    (listData "clients" s.localClients (addClientToJson s (readVerbose json)) json).map .ok
  | getGroup =>
    readOne (readGroupname json) s.groupsFind (Rc.nomem, "Group not found") "group"
      (addGroupToJson s true)
  | listGroups =>
    (listData "groups" s.localGroups (addGroupToJson s (readVerbose json)) json).map .ok
  | getAnonymousGroup => do
    let groupname ← match s.dynsecAnonymousGroup with
      | some g => (s.localGroups.get g).map Group.groupname
      | none => some []
    return .ok (.object [(ascii "group", .object [(ascii "groupname", .string groupname)])])
  | getRole =>
    readOne (readRolename json) s.rolesFind (Rc.success, "Role not found") "role"
      (addRoleToJson true)
  | listRoles => (listData "roles" s.localRoles (addRoleToJson (readVerbose json)) json).map .ok

end Query

/-! ## `dynsec__handle_control` -/

structure Response where
  command : Bytes
  error : Option String
  data : Option Json
  correlationData : Option Bytes

/-- What the plugin does. -/
inductive Effect where
  | reply (response : Response)
  | kick (username : Option Bytes)
  | save (file : Bytes)

def Result.effects (result : Result) (command : Bytes) (correlationData : Option Bytes) :
    Option (List Effect) := do
  let saves ← if result.saved then (configSave crypto result.store).map fun file => [Effect.save file]
    else some []
  return saves ++ [.reply ⟨command, result.error, none, correlationData⟩] ++
    result.kicks.map .kick

structure Turn where
  rc : Rc
  store : Store
  effects : List Effect
  correlationData : Option Bytes
  /-- `cJSON_ArrayForEach` goes on. -/
  goesOn : Bool

def replies (s : Store) (correlationData : Option Bytes) (rc : Rc) (command : Bytes)
    (error : Option String) (data : Option Json) : Option Turn :=
  some ⟨rc, s, [.reply ⟨command, error, data, correlationData⟩], correlationData, true⟩

/-- The command has a name. -/
def handleNamed (rand command : Bytes) (json : Json) (correlationData : Option Bytes) (s : Store) :
    Option Turn :=
  match Command.all.find? fun c => sameIgnoringCase command (ascii c.text) with
  | some c => do
    let result ← c.process crypto rand json s
    let effects ← result.effects crypto (ascii c.text) correlationData
    return ⟨result.rc, result.store, effects, correlationData, true⟩
  | none =>
    match Query.all.find? fun q => sameIgnoringCase command (ascii q.text) with
    | some q => do
      match ← q.process json s with
      | .ok data => replies s correlationData Rc.success (ascii q.text) none (some data)
      | .error (rc, error) => replies s correlationData rc (ascii q.text) (some error) none
    | none => replies s correlationData Rc.inval command (some "Unknown command") none

/-- A turn of the loop, with the random bytes it gets. -/
def handleCommand (rand : Bytes) (json : Json) (correlationData : Option Bytes) (s : Store) :
    Option Turn :=
  let unknown := replies s correlationData Rc.inval (ascii "Unknown command")
  if !json.isObject then unknown (some "Command not an object") none
  else
    match json.getString "command" false with
    | (0, some command) =>
      match json.getString "correlationData" true with
      | (0, correlationData) => handleNamed crypto rand command json correlationData s
      | _ => some ⟨Rc.inval, s,
          [.reply ⟨command, some "Invalid correlationData data type.", none, none⟩], none, false⟩
    | _ => unknown (some "Missing command") none

/-- `dynsec__handle_control`, with the return code, the correlation data and the effects so far. -/
def handleControl : List (Bytes × Json) → Rc → Option Bytes → List Effect → Store →
    Option (Rc × List Effect × Store)
  | [], rc, _, effects, s => some (rc, effects, s)
  | (rand, json) :: rest, _, correlationData, effects, s =>
    match handleCommand crypto rand json correlationData s with
    | none => none
    | some turn =>
      if turn.goesOn then
        handleControl rest turn.rc turn.correlationData (effects ++ turn.effects) turn.store
      else some (turn.rc, effects ++ turn.effects, turn.store)

end AdaptiveMqtt.Dynsec
