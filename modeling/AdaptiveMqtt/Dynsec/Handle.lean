import AdaptiveMqtt.Dynsec.Config
import AdaptiveMqtt.Packet.Utf8

/-!
# The control commands

`clients.c`, `groups.c`, `roles.c` and `plugin.c`: the commands that change the store. A command
checks its fields, changes the store, saves it, kicks the clients that are affected and replies.
-/

namespace AdaptiveMqtt.Dynsec

open Lib Security

/-- What a command does: its return code, the error it replies with, the store it leaves, whether
it saved it, and the usernames it kicks. -/
structure Result where
  rc : Rc
  error : Option String
  store : Store
  saved : Bool
  kicks : List (Option Bytes)

/-- A command that only replies. -/
def refuse (s : Store) (e : Rc × String) : Option Result := some ⟨e.1, some e.2, s, false, []⟩

def done (s : Store) (kicks : List (Option Bytes)) : Option Result :=
  some ⟨Rc.success, none, s, true, kicks⟩

def checked {α : Type} (s : Store) (x : Except (Rc × String) α) (k : α → Option Result) :
    Option Result :=
  match x with
  | .error e => refuse s e
  | .ok a => k a

/-! ## Fields -/

variable [JsonLibrary]

/-- `mosquitto_validate_utf8(str, (int)strlen(str)) == MOSQ_ERR_SUCCESS`. -/
def validUtf8 (str : Bytes) : Bool :=
  Packet.mosquittoValidateUtf8At str str.length = some Rc.success

/-- A field that must be there. -/
def required (command : Json) (name : String) (missing : String) : Except (Rc × String) Bytes :=
  match command.getString name false with
  | (0, some value) => .ok value
  | _ => .error (Rc.inval, missing)

/-- A field that must be a string if it is there. -/
def optional (command : Json) (name : String) (invalid : String) :
    Except (Rc × String) (Option Bytes) :=
  match command.getString name true with
  | (0, value) => .ok value
  | _ => .error (Rc.inval, invalid)

def utf8 (value : Bytes) (invalid : String) : Except (Rc × String) Bytes :=
  if validUtf8 value then .ok value else .error (Rc.inval, invalid)

def requiredName (command : Json) (name missing invalid : String) : Except (Rc × String) Bytes := do
  utf8 (← required command name missing) invalid

def readUsername (command : Json) : Except (Rc × String) Bytes :=
  requiredName command "username" "Invalid/missing username" "Username not valid UTF-8"

def readGroupname (command : Json) : Except (Rc × String) Bytes :=
  requiredName command "groupname" "Invalid/missing groupname" "Group name not valid UTF-8"

def readRolename (command : Json) : Except (Rc × String) Bytes :=
  requiredName command "rolename" "Invalid/missing rolename" "Role name not valid UTF-8"

/-- The two texts of an object that is created. -/
def readTexts (command : Json) : Except (Rc × String) (Option Bytes × Option Bytes) := do
  let textName ← optional command "textname" "Invalid/missing textname"
  let textDescription ← optional command "textdescription" "Invalid/missing textdescription"
  return (textName, textDescription)

/-- `json_get_string(command, name, &text, false) == MOSQ_ERR_SUCCESS`: the text that replaces
another. -/
def newText (command : Json) (name : String) (old : Option Bytes) : Option Bytes :=
  match command.getString name false with
  | (0, some text) => some text
  | _ => old

/-- `strlen(clientid) > 0`: an empty client id is none. -/
def nonempty (clientid : Option Bytes) : Option Bytes := clientid.filter (· ≠ [])

variable (crypto : Crypto)

/-- `client__set_password`, with what `RAND_bytes` gives for the salt. -/
def setPassword (rand password : Bytes) : Pw := ⟨crypto.pbkdf2 password rand 101, rand, 101, true⟩

/-! ## Clients -/

/-- The loop over `"groups"` of `dynsec_clients__process_create`: the error, if there is one. -/
def createClientGroups (username : Bytes) :
    List (Bytes × Int32) → Store → Option (Option String × Store)
  | [], s => some (none, s)
  | (groupname, prio) :: groups, s =>
    match groupsAddClient username groupname prio s with
    | none => none
    | some (rc, s) =>
      if rc = errGroupNotFound then some (some "Group not found", s)
      else if rc ≠ Rc.success then some (some "Internal error", s)
      else createClientGroups username groups s

def readCreateClient (command : Json) :
    Except (Rc × String) (Bytes × Option Bytes × Option Bytes × Option Bytes × Option Bytes) := do
  let username ← readUsername command
  let password ← optional command "password" "Invalid/missing password"
  let clientid ← optional command "clientid" "Invalid/missing client id"
  let clientid ← match clientid with
    | none => pure none
    | some clientid => some <$> utf8 clientid "Client ID not valid UTF-8"
  let (textName, textDescription) ← readTexts command
  return (username, password, clientid, textName, textDescription)

def processCreateClient (rand : Bytes) (command : Json) (s : Store) : Option Result :=
  checked s (readCreateClient command) fun (username, password, clientid, textName, textDescription) =>
    if (s.clientsFind username).isSome then refuse s (Rc.success, "Client already exists")
    else do
      let pw := password.elim Pw.zero (setPassword crypto rand)
      let (rc, rolelist) ← rolelistLoadFromJson s command
      if rc = Rc.notFound then refuse s (Rc.inval, "Role not found")
      else if rc = Rc.inval then
        refuse s (Rc.inval, "'roles' not an array or missing/invalid rolename")
      else
        let client : Client := ⟨username, nonempty clientid, textName, textDescription, pw, false,
          rolelist, []⟩
        let c := s.next
        let groups := Json.members (command.arrayField "groups") "groupname"
        let (error, s) ← createClientGroups username groups (s.addClient client)
        match error with
        -- `client__free_item` does not find the client any more to take it out of its groups
        | some error => refuse { s with localClients := s.localClients.erase c } (Rc.inval, error)
        | none => done s []

def processDeleteClient (command : Json) (s : Store) : Option Result :=
  checked s (required command "username" "Invalid/missing username") fun username =>
    match s.clientsFind username with
    | none => refuse s (Rc.success, "Client not found")
    | some (c, _) => do
      let s ← removeClientFromAllGroups username s
      let s ← clientRemoveAllRoles c s
      done { s with localClients := s.localClients.erase c } [some username]

def onClient (command : Json) (s : Store) (k : Bytes → Addr → Client → Option Result) :
    Option Result :=
  checked s (readUsername command) fun username =>
    match s.clientsFind username with
    | none => refuse s (Rc.success, "Client not found")
    | some (c, client) => k username c client

def processDisableClient (command : Json) (s : Store) : Option Result :=
  onClient command s fun username c _ =>
    done (s.setClient c fun client => { client with disabled := true }) [some username]

def processEnableClient (command : Json) (s : Store) : Option Result :=
  onClient command s fun _ c _ =>
    done (s.setClient c fun client => { client with disabled := false }) []

/-- The fields of `setClientId`. -/
def readSetId (command : Json) : Except (Rc × String) (Bytes × Option Bytes) := do
  let username ← readUsername command
  match ← optional command "clientid" "Invalid/missing client ID" with
  | none => return (username, none)
  | some clientid => return (username, some (← utf8 clientid "Client ID not valid UTF-8"))

def processSetClientId (command : Json) (s : Store) : Option Result :=
  checked s (readSetId command) fun (username, clientid) =>
    match s.clientsFind username with
    | none => refuse s (Rc.success, "Client not found")
    | some (c, _) =>
      done (s.setClient c fun client => { client with clientid := nonempty clientid })
        [some username]

/-- The fields of `setClientPassword`. -/
def readSetPassword (command : Json) : Except (Rc × String) (Bytes × Bytes) := do
  let username ← readUsername command
  let password ← required command "password" "Invalid/missing password"
  if password = [] then .error (Rc.inval, "Empty password is not allowed")
  else return (username, password)

def processSetClientPassword (rand : Bytes) (command : Json) (s : Store) : Option Result :=
  checked s (readSetPassword command) fun (username, password) =>
    match s.clientsFind username with
    | none => refuse s (Rc.success, "Client not found")
    | some (c, _) =>
      done (s.setClient c fun client => { client with pw := setPassword crypto rand password })
        [some username]

/-- The fields `modifyClient` replaces. -/
def modifiedClient (rand : Bytes) (command : Json) (client : Client) : Client :=
  { client with
    clientid := match command.getString "clientid" false with
      | (0, clientid) => nonempty clientid
      | _ => client.clientid
    pw := match command.getString "password" false with
      | (0, some password) => if password = [] then client.pw else setPassword crypto rand password
      | _ => client.pw
    textName := newText command "textname" client.textName
    textDescription := newText command "textdescription" client.textDescription }

/-- What the return codes of `dynsec_rolelist__load_from_json` mean to `modifyClient` and
`modifyGroup`. -/
def rolesError (rc : Rc) : Option String :=
  if rc = Rc.notFound then some "Role not found"
  else if rc = Rc.inval then some "'roles' not an array or missing/invalid rolename"
  else none

def replaceClientRoles (c : Addr) (rc : Rc) (rolelist : List Ref) (s : Store) : Option Store :=
  if rc = Rc.success then (clientRemoveAllRoles c s).bind (clientAddNewRoles c rolelist)
  else some s

def replaceClientGroups (username : Bytes) (command : Json) (s : Store) : Option Store :=
  match command.getObjectItem "groups" with
  | some (.array jGroups) =>
    (removeClientFromAllGroups username s).bind
      (clientAddGroups username (Json.members jGroups "groupname"))
  | _ => some s

def processModifyClient (rand : Bytes) (command : Json) (s : Store) : Option Result :=
  checked s (readUsername command) fun username =>
    match s.clientsFind username with
    | none => refuse s (Rc.inval, "Client not found")
    | some (c, _) => do
      let s := s.setClient c (modifiedClient crypto rand command)
      let (rc, rolelist) ← rolelistLoadFromJson s command
      match rolesError rc with
      | some error => some ⟨Rc.inval, some error, s, false, [some username]⟩
      | none =>
        let s ← replaceClientRoles c rc rolelist s
        let s ← replaceClientGroups username command s
        done s [some username]

/-- The fields of `addClientRole` and `removeClientRole`. -/
def readClientRole (command : Json) : Except (Rc × String) (Bytes × Bytes) := do
  return (← readUsername command, ← readRolename command)

def onClientRole (command : Json) (s : Store)
    (k : Bytes → Addr → Client → Addr → Role → Option Result) : Option Result :=
  checked s (readClientRole command) fun (username, rolename) =>
    match s.clientsFind username with
    | none => refuse s (Rc.success, "Client not found")
    | some (c, client) =>
      match s.rolesFind rolename with
      | none => refuse s (Rc.success, "Role not found")
      | some (r, role) => k username c client r role

def processAddClientRole (command : Json) (s : Store) : Option Result :=
  onClientRole command s fun username c client r role => do
    let (rc, s) ← rolelistClientAdd c client (some (r, role)) (command.getInt "priority" (-1)) s
    if rc ≠ Rc.success then refuse s (Rc.unknown, "Internal error")
    else done s [some username]

def processRemoveClientRole (command : Json) (s : Store) : Option Result :=
  onClientRole command s fun username c _ r _ => do
    let (_, s) ← rolelistClientRemove c r s
    done s [some username]

/-! ## Groups -/

def readCreateGroup (command : Json) :
    Except (Rc × String) (Bytes × Option Bytes × Option Bytes) := do
  return (← readGroupname command, ← readTexts command)

def processCreateGroup (command : Json) (s : Store) : Option Result :=
  checked s (readCreateGroup command) fun (groupname, textName, textDescription) =>
    if (s.groupsFind groupname).isSome then refuse s (Rc.success, "Group already exists")
    else do
      let (rc, rolelist) ← rolelistLoadFromJson s command
      if rc = Rc.notFound then refuse s (Rc.inval, "Role not found")
      else if rc = Rc.inval then refuse s (Rc.inval, "Internal error")
      else done (s.addGroup ⟨groupname, textName, textDescription, rolelist, []⟩) []

def onGroup (command : Json) (s : Store) (missing : Rc) (k : Addr → Group → Option Result) :
    Option Result :=
  checked s (readGroupname command) fun groupname =>
    match s.groupsFind groupname with
    | none => refuse s (missing, "Group not found")
    | some (g, group) => k g group

/-- `dynsec_groups__process_delete`. `dynsec_anonymous_group` is left alone. -/
def processDeleteGroup (command : Json) (s : Store) : Option Result :=
  onGroup command s Rc.success fun g _ => do
    let kicks ← groupKickAll s g
    let s ← removeAllRolesFromGroup g s
    let s ← removeAllClientsFromGroup g s
    done { s with localGroups := s.localGroups.erase g } kicks

/-- The fields of `addGroupClient` and `removeGroupClient`. -/
def readGroupClient (command : Json) : Except (Rc × String) (Bytes × Bytes) := do
  return (← readUsername command, ← readGroupname command)

/-- What `addGroupClient` and `removeGroupClient` reply. -/
def groupClientError (rc : Rc) : String :=
  if rc = errUserNotFound then "Client not found"
  else if rc = errGroupNotFound then "Group not found"
  else if rc = alreadyExists then "Client is already in this group"
  else "Internal error"

def processAddGroupClient (command : Json) (s : Store) : Option Result :=
  checked s (readGroupClient command) fun (username, groupname) => do
    let (rc, s) ← groupsAddClient username groupname (command.getInt "priority" (-1)) s
    if rc = Rc.success then done s [some username]
    else some ⟨rc, some (groupClientError rc), s, false, [some username]⟩

def processRemoveGroupClient (command : Json) (s : Store) : Option Result :=
  checked s (readGroupClient command) fun (username, groupname) => do
    let (rc, s) ← groupsRemoveClient username groupname s
    if rc = Rc.success then done s [some username]
    else some ⟨rc, some (groupClientError rc), s, false, [some username]⟩

/-- The fields of `addGroupRole` and `removeGroupRole`. -/
def readGroupRole (command : Json) : Except (Rc × String) (Bytes × Bytes) := do
  return (← readGroupname command, ← readRolename command)

def onGroupRole (command : Json) (s : Store) (k : Addr → Group → Addr → Role → Option Result) :
    Option Result :=
  checked s (readGroupRole command) fun (groupname, rolename) =>
    match s.groupsFind groupname with
    | none => refuse s (Rc.success, "Group not found")
    | some (g, group) =>
      match s.rolesFind rolename with
      | none => refuse s (Rc.success, "Role not found")
      | some (r, role) => k g group r role

def processAddGroupRole (command : Json) (s : Store) : Option Result :=
  onGroupRole command s fun g group r role => do
    let (rc, s) ← rolelistGroupAdd g group (some (r, role)) (command.getInt "priority" (-1)) s
    if rc = Rc.success then do
      let kicks ← groupKickAll s g
      done s kicks
    else if rc = alreadyExists then refuse s (alreadyExists, "Group is already in this role")
    else refuse s (Rc.unknown, "Internal error")

def processRemoveGroupRole (command : Json) (s : Store) : Option Result :=
  onGroupRole command s fun g _ r _ => do
    let s ← rolelistGroupRemove g r s
    let kicks ← groupKickAll s g
    done s kicks

/-- `modifyGroup` replaces the list of roles, if it has `"roles"`. The roles are not told. -/
def replaceGroupRoles (g : Addr) (rc : Rc) (rolelist : List Ref) (s : Store) : Store :=
  if rc = Rc.success then s.setGroup g fun group => { group with rolelist } else s

def replaceGroupClients (g : Addr) (groupname : Bytes) (command : Json) (s : Store) :
    Option Store :=
  match command.getObjectItem "clients" with
  | some (.array jClients) =>
    (removeAllClientsFromGroup g s).bind
      (groupAddClients groupname (Json.members jClients "username"))
  | _ => some s

def processModifyGroup (command : Json) (s : Store) : Option Result :=
  onGroup command s Rc.inval fun g group => do
    let s := s.setGroup g fun group =>
      { group with textName := newText command "textname" group.textName
                   textDescription := newText command "textdescription" group.textDescription }
    let (rc, rolelist) ← rolelistLoadFromJson s command
    match rolesError rc with
    | some error =>
      let kicks ← groupKickAll s g
      some ⟨Rc.inval, some error, s, false, kicks⟩
    | none =>
      let s ← replaceGroupClients g group.groupname command (replaceGroupRoles g rc rolelist s)
      let kicks ← groupKickAll s g
      done s kicks

def processSetAnonymousGroup (command : Json) (s : Store) : Option Result :=
  onGroup command s Rc.success fun g _ => done { s with dynsecAnonymousGroup := some g } [none]

/-! ## Roles -/

def readAcls (command : Json) : Option (AclType → AclList) :=
  match command.getObjectItem "acls" with
  | some (.array jAcls) => some (aclsLoad jAcls)
  | _ => none

def readCreateRole (command : Json) :
    Except (Rc × String) (Bytes × Option Bytes × Option Bytes) := do
  return (← readRolename command, ← readTexts command)

def processCreateRole (command : Json) (s : Store) : Option Result :=
  checked s (readCreateRole command) fun (rolename, textName, textDescription) =>
    if (s.rolesFind rolename).isSome then refuse s (Rc.success, "Role already exists")
    else
      done (s.addRole ⟨rolename, textName, textDescription,
        (readAcls command).getD fun _ => UtHash.empty, [], []⟩) []

def onRole (command : Json) (s : Store) (missing : Rc × String) (k : Addr → Role → Option Result) :
    Option Result :=
  checked s (readRolename command) fun rolename =>
    match s.rolesFind rolename with
    | none => refuse s missing
    | some (r, role) => k r role

def roleRemoveAllClients (r : Addr) (s : Store) : Option (List (Option Bytes) × Store) := do
  let role ← s.localRoles.get r
  role.clientlist.foldlM (fun x e => do
    let client ← x.2.localClients.get e.addr
    let removed ← rolelistClientRemove e.addr r x.2
    return (x.1 ++ [some client.username], removed.2)) ([], s)

def roleRemoveAllGroups (r : Addr) (s : Store) : Option (List (Option Bytes) × Store) := do
  let role ← s.localRoles.get r
  role.grouplist.foldlM (fun x e => do
    let more ← groupKickAll x.2 e.addr
    let s ← rolelistGroupRemove e.addr r x.2
    return (x.1 ++ more, s)) ([], s)

def processDeleteRole (command : Json) (s : Store) : Option Result :=
  onRole command s (Rc.success, "Role not found") fun r _ => do
    let (clients, s) ← roleRemoveAllClients r s
    let (groups, s) ← roleRemoveAllGroups r s
    done { s with localRoles := s.localRoles.erase r } (clients ++ groups)

def processModifyRole (command : Json) (s : Store) : Option Result :=
  onRole command s (Rc.inval, "Role does not exist") fun r _ =>
    done (s.setRole r fun role =>
      { role with textName := newText command "textname" role.textName
                  textDescription := newText command "textdescription" role.textDescription
                  acls := (readAcls command).getD role.acls }) []

/-- The list an `"acltype"` stands for. -/
def aclTypeOf (text : Bytes) : Option AclType :=
  AclType.all.find? fun type => sameIgnoringCase text (ascii type.text)

/-- The `"acltype"` of `addRoleACL` and `removeRoleACL`. -/
def readAclType (command : Json) : Except (Rc × String) AclType :=
  match command.getObjectItem "acltype" with
  | some (.string text) =>
    match aclTypeOf text with
    | some type => .ok type
    | none => .error (Rc.success, "Unknown acltype")
  | _ => .error (Rc.success, "Invalid/missing acltype")

def readAclTopic (command : Json) : Except (Rc × String) Bytes :=
  match command.getObjectItem "topic" with
  | some (.string topic) =>
    if !validUtf8 topic then .error (Rc.inval, "Topic not valid UTF-8")
    else if Topic.mosquittoSubTopicCheck topic ≠ Rc.success then
      .error (Rc.inval, "Invalid ACL topic")
    else .ok topic
  | _ => .error (Rc.success, "Invalid/missing topic")

/-- The entry of a role that `addRoleACL` and `removeRoleACL` are about. -/
def readAcl (command : Json) : Except (Rc × String) (AclType × Bytes) := do
  return (← readAclType command, ← readAclTopic command)

/-- `json_get_bool(command, "allow", &allow, true, false)`. -/
def readAllow (command : Json) : Bool :=
  match command.getObjectItem "allow" with
  | some (.bool allow) => allow
  | _ => false

def processAddRoleAcl (command : Json) (s : Store) : Option Result :=
  onRole command s (Rc.success, "Role not found") fun r role =>
    checked s (readAcl command) fun (type, topic) =>
      if ((role.acls type).find topic).isSome then
        refuse s (Rc.success, "ACL with this topic already exists")
      else do
        let acl : DynsecAcl := ⟨topic, command.getInt "priority" 0, readAllow command⟩
        let s := s.setRole r fun role =>
          { role with acls := Function.update role.acls type ((role.acls type).add acl) }
        let kicks ← roleKickAll s role
        done s kicks

def processRemoveRoleAcl (command : Json) (s : Store) : Option Result :=
  onRole command s (Rc.success, "Role not found") fun r role =>
    checked s (readAcl command) fun (type, topic) =>
      match (role.acls type).find topic with
      | some (acl, _) => do
        let s := s.setRole r fun role =>
          { role with acls := Function.update role.acls type ((role.acls type).delete acl) }
        let kicks ← roleKickAll s role
        done s kicks
      | none => refuse s (Rc.success, "ACL not found")

/-! ## The defaults -/

/-- An action of `setDefaultACLAccess`. -/
def setDefault (access : DefaultAccess) (jAction : Json) : DefaultAccess :=
  match jAction.getObjectItem "acltype", jAction.getObjectItem "allow" with
  | some (.string acltype), some (.bool allow) =>
    if sameIgnoringCase acltype (ascii "publishClientSend") then { access with publishCSend := allow }
    else if sameIgnoringCase acltype (ascii "publishClientReceive") then
      { access with publishCRecv := allow }
    else if sameIgnoringCase acltype (ascii "subscribe") then { access with subscribe := allow }
    else if sameIgnoringCase acltype (ascii "unsubscribe") then { access with unsubscribe := allow }
    else access
  | _, _ => access

def processSetDefaultAclAccess (command : Json) (s : Store) : Option Result :=
  match command.getObjectItem "acls" with
  | some (.array jActions) =>
    done { s with defaultAccess := jActions.foldl setDefault s.defaultAccess } []
  | _ => refuse s (Rc.inval, "Missing/invalid actions array")

/-! ## The commands -/

inductive Command where
  | setDefaultACLAccess
  | createClient | deleteClient | modifyClient | setClientPassword | setClientId
  | addClientRole | removeClientRole | enableClient | disableClient
  | addGroupClient | createGroup | deleteGroup | modifyGroup | removeGroupClient
  | addGroupRole | removeGroupRole | setAnonymousGroup
  | createRole | modifyRole | deleteRole | addRoleACL | removeRoleACL
  deriving DecidableEq, Repr

namespace Command

def all : List Command :=
  [setDefaultACLAccess, createClient, deleteClient, modifyClient, setClientPassword, setClientId,
    addClientRole, removeClientRole, enableClient, disableClient, addGroupClient, createGroup,
    deleteGroup, modifyGroup, removeGroupClient, addGroupRole, removeGroupRole, setAnonymousGroup,
    createRole, modifyRole, deleteRole, addRoleACL, removeRoleACL]

/-- The `"command"`. -/
def text : Command → String
  | setDefaultACLAccess => "setDefaultACLAccess"
  | createClient => "createClient"
  | deleteClient => "deleteClient"
  | modifyClient => "modifyClient"
  | setClientPassword => "setClientPassword"
  | setClientId => "setClientId"
  | addClientRole => "addClientRole"
  | removeClientRole => "removeClientRole"
  | enableClient => "enableClient"
  | disableClient => "disableClient"
  | addGroupClient => "addGroupClient"
  | createGroup => "createGroup"
  | deleteGroup => "deleteGroup"
  | modifyGroup => "modifyGroup"
  | removeGroupClient => "removeGroupClient"
  | addGroupRole => "addGroupRole"
  | removeGroupRole => "removeGroupRole"
  | setAnonymousGroup => "setAnonymousGroup"
  | createRole => "createRole"
  | modifyRole => "modifyRole"
  | deleteRole => "deleteRole"
  | addRoleACL => "addRoleACL"
  | removeRoleACL => "removeRoleACL"

/-- What the command does. -/
def process (rand : Bytes) (json : Json) (s : Store) : Command → Option Result
  | setDefaultACLAccess => processSetDefaultAclAccess json s
  | createClient => processCreateClient crypto rand json s
  | deleteClient => processDeleteClient json s
  | modifyClient => processModifyClient crypto rand json s
  | setClientPassword => processSetClientPassword crypto rand json s
  | setClientId => processSetClientId json s
  | addClientRole => processAddClientRole json s
  | removeClientRole => processRemoveClientRole json s
  | enableClient => processEnableClient json s
  | disableClient => processDisableClient json s
  | addGroupClient => processAddGroupClient json s
  | createGroup => processCreateGroup json s
  | deleteGroup => processDeleteGroup json s
  | modifyGroup => processModifyGroup json s
  | removeGroupClient => processRemoveGroupClient json s
  | addGroupRole => processAddGroupRole json s
  | removeGroupRole => processRemoveGroupRole json s
  | setAnonymousGroup => processSetAnonymousGroup json s
  | createRole => processCreateRole json s
  | modifyRole => processModifyRole json s
  | deleteRole => processDeleteRole json s
  | addRoleACL => processAddRoleAcl json s
  | removeRoleACL => processRemoveRoleAcl json s

end Command

end AdaptiveMqtt.Dynsec
