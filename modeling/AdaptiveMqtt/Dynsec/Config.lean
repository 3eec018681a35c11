import AdaptiveMqtt.Dynsec.Model

/-!
# The configuration file

`dynsec__config_save` writes the store as JSON and `dynsec__config_load` reads it back. The file
is the printed tree. Printing and parsing are `cJSON`'s, base64 and the hash of passwords are
OpenSSL's.
-/

namespace AdaptiveMqtt.Dynsec

open Lib Security

/-- What OpenSSL does. -/
structure Crypto where
  /-- `PKCS5_PBKDF2_HMAC` with SHA512: the password, the salt, the iterations. -/
  pbkdf2 : Bytes → Bytes → Int32 → Bytes
  /-- `dynsec_auth__base64_encode`. -/
  base64Encode : Bytes → Bytes
  /-- `dynsec_auth__base64_decode`. -/
  base64Decode : Bytes → Option Bytes

variable (crypto : Crypto)

/-! ## Saving -/

/-- `cJSON_AddStringToObject` of a text that may be missing. -/
def textField (name : String) (text : Option Bytes) : List (Bytes × Json) :=
  text.toList.map fun text => (ascii name, .string text)

def priorityField (prio : Int32) : List (Bytes × Json) :=
  if prio ≠ -1 then [(ascii "priority", .number prio)] else []

def rolelistAllToJson (s : Store) (base : List Ref) : Option Json := do
  let jRoles ← base.mapM fun e => do
    let role ← s.localRoles.get e.addr
    return Json.object ([(ascii "rolename", .string role.rolename)] ++ priorityField (priority e))
  return .array jRoles

def clientlistAllToJson (s : Store) (base : List Ref) : Option Json := do
  let jClients ← base.mapM fun e => do
    let client ← s.localClients.get e.addr
    return Json.object ([(ascii "username", .string client.username)] ++ priorityField (priority e))
  return .array jClients

/-- The password of a client that has one. -/
def pwFields (pw : Pw) : List (Bytes × Json) :=
  if pw.valid then
    [(ascii "password", .string (crypto.base64Encode pw.passwordHash)),
      (ascii "salt", .string (crypto.base64Encode pw.salt)),
      (ascii "iterations", .number pw.iterations)]
  else []

def clientFields (client : Client) : List (Bytes × Json) :=
  [(ascii "username", .string client.username)]
    ++ textField "clientid" client.clientid ++ textField "textname" client.textName
    ++ textField "textdescription" client.textDescription
    ++ (if client.disabled then [(ascii "disabled", .bool true)] else [])

/-- An element of `dynsec__config_add_clients`. -/
def clientToJson (s : Store) (client : Client) : Option Json := do
  let jRoles ← rolelistAllToJson s client.rolelist
  return .object (clientFields client ++ [(ascii "roles", jRoles)] ++ pwFields crypto client.pw)

/-- An element of `dynsec__config_add_groups`. -/
def groupToJson (s : Store) (group : Group) : Option Json := do
  let jRoles ← rolelistAllToJson s group.rolelist
  let jClients ← clientlistAllToJson s group.clientlist
  return .object ([(ascii "groupname", .string group.groupname)]
    ++ textField "textname" group.textName ++ textField "textdescription" group.textDescription
    ++ [(ascii "roles", jRoles), (ascii "clients", jClients)])

def aclsToJson (type : AclType) (acls : List DynsecAcl) : List Json :=
  acls.map fun acl => .object [(ascii "acltype", .string (ascii type.text)),
    (ascii "topic", .string acl.topic), (ascii "priority", .number acl.priority),
    (ascii "allow", .bool acl.allow)]

def roleToJson (role : Role) : Json :=
  .object ([(ascii "rolename", .string role.rolename)] ++ textField "textname" role.textName
    ++ textField "textdescription" role.textDescription
    ++ [(ascii "acls", .array (AclType.all.flatMap fun type => aclsToJson type (role.acls type).entries))])

def generalConfigSave (access : DefaultAccess) : Json :=
  .object [(ascii "publishClientSend", .bool access.publishCSend),
    (ascii "publishClientReceive", .bool access.publishCRecv),
    (ascii "subscribe", .bool access.subscribe), (ascii "unsubscribe", .bool access.unsubscribe)]

def configSaveTree (s : Store) : Option Json := do
  let jClients ← s.localClients.entries.mapM fun e => clientToJson crypto s e.2
  let jGroups ← s.localGroups.entries.mapM fun e => groupToJson s e.2
  let anonymous ← s.dynsecAnonymousGroup.mapM fun g => do
    let group ← s.localGroups.get g
    return (ascii "anonymousGroup", Json.string group.groupname)
  return .object ([(ascii "defaultACLAccess", generalConfigSave s.defaultAccess),
    (ascii "clients", .array jClients), (ascii "groups", .array jGroups)] ++ anonymous.toList
    ++ [(ascii "roles", .array (s.localRoles.entries.map fun e => roleToJson e.2))])

variable [JsonLibrary]

/-- `dynsec__config_save`: the file. -/
def configSave (s : Store) : Option Bytes := (configSaveTree crypto s).map JsonLibrary.print

/-! ## Loading -/

/-- `dynsec_roles__acl_load` of every list, into empty lists. -/
def aclsLoad (jAcls : List Json) (type : AclType) : AclList :=
  jAcls.foldl (fun acllist jAcl =>
    (aclOf (ascii type.text) jAcl.acl).elim acllist fun acl => acllist.add acl) UtHash.empty

theorem entries_aclsLoad (jAcls : List Json) (type : AclType) :
    (aclsLoad jAcls type).entries =
      dynsecRolesAclLoad (jAcls.map Json.acl) (ascii type.text) [] := by
  have hfold : ∀ (l : List Json) (acllist : AclList), (l.foldl (fun acllist jAcl =>
      (aclOf (ascii type.text) jAcl.acl).elim acllist fun acl => acllist.add acl) acllist).entries =
      dynsecRolesAclLoad (l.map Json.acl) (ascii type.text) acllist.entries := by
    intro l
    unfold dynsecRolesAclLoad
    induction l with
    | nil => exact fun _ => rfl
    | cons jAcl l ih =>
      intro acllist
      rw [List.foldl_cons, ih, List.map_cons, List.foldl_cons]
      cases aclOf (ascii type.text) jAcl.acl with
      | none => rfl
      | some acl =>
        rw [Option.elim_some, AclList.entries_add]
  exact hfold jAcls UtHash.empty

/-- `HASH_ADD_KEYPTR`: the last element. -/
def addLast {α : Type} (t : Table Addr α) (a : Addr) (v : α) : Table Addr α :=
  t.insert (fun _ => true) a v

def sortByName {α : Type} (name : α → Bytes) (t : Table Addr α) : Table Addr α :=
  t.sort fun a b => strcmp (name a) (name b) ≤ 0

def boolOf (json : Json) (name : String) : Bool :=
  match json.getObjectItem name with
  | some (.bool value) => value
  | _ => false

def generalConfigLoad (tree : Json) (s : Store) : Store :=
  match tree.getObjectItem "defaultACLAccess" with
  | some (.object fields) =>
    let json := Json.object fields
    { s with defaultAccess := ⟨boolOf json "publishClientSend",
      boolOf json "publishClientReceive", boolOf json "subscribe",
      boolOf json "unsubscribe"⟩ }
  | _ => s

/-- A text of a role: one that is not a string is read at `NULL`. -/
def roleText (json : Json) (name : String) : Option (Option Bytes) :=
  match json.getObjectItem name with
  | none => some none
  | some (.string text) => some (some text)
  | some _ => none

/-- An element of `"roles"`. -/
def loadRole (jRole : Json) (s : Store) : Option Store := do
  if !jRole.isObject then return s
  match ← roleText jRole "rolename" with
  | none => return s
  | some rolename =>
    let textName ← roleText jRole "textname"
    let textDescription ← roleText jRole "textdescription"
    let role : Role :=
      ⟨rolename, textName, textDescription, aclsLoad (jRole.arrayField "acls"), [], []⟩
    return { s with
      localRoles := addLast s.localRoles s.next role
      next := s.next + 1 }

/-- What the loaders do with an array of the file. `none` inside is an error that ends loading. -/
def loadArray (tree : Json) (name : String) (load : Json → Store → Option Store)
    (finish : Store → Store) (s : Store) : Option (Option Store) :=
  match tree.getObjectItem name with
  | none => some (some s)
  | some (.array items) => (items.foldlM (fun s json => load json s) s).map fun s => some (finish s)
  | some _ => some none

def rolesConfigLoad (tree : Json) (s : Store) : Option (Option Store) :=
  loadArray tree "roles" loadRole
    (fun s => { s with localRoles := sortByName (·.rolename) s.localRoles }) s

def textOf (json : Json) (name : String) : Option Bytes :=
  match json.getObjectItem name with
  | some (.string text) => some text
  | _ => none

/-- The password of an element of `"clients"`. `none`: the client is left out. -/
def loadPw (jClient : Json) : Option Pw :=
  match jClient.getObjectItem "salt", jClient.getObjectItem "password",
      jClient.getObjectItem "iterations" with
  | some (.string jSalt), some (.string jPassword), some (.number iterations) =>
    if iterations < 1 then none
    else
      match crypto.base64Decode jSalt, crypto.base64Decode jPassword with
      | some salt, some passwordHash =>
        if salt.length = 12 ∧ passwordHash.length = 64 then
          some ⟨passwordHash, salt, iterations, true⟩
        else none
      | _, _ => none
  | _, _, _ => some Pw.zero

def loadClientRoles (c : Addr) (roles : List (Bytes × Int32)) (s : Store) : Option Store :=
  roles.foldlM (fun s m => do
    let client ← s.localClients.get c
    let (_, s) ← rolelistClientAdd c client (s.rolesFind m.1) m.2 s
    return s) s

/-- An element of `"clients"`. It is put into the table before its roles are read, which makes no
difference: reading them does not look at `local_clients`. -/
def loadClient (jClient : Json) (s : Store) : Option Store :=
  match jClient.isObject, jClient.getObjectItem "username", loadPw crypto jClient with
  | true, some (.string username), some pw =>
    let client : Client := ⟨username, textOf jClient "clientid", textOf jClient "textname",
      textOf jClient "textdescription", pw, boolOf jClient "disabled", [], []⟩
    loadClientRoles s.next (Json.members (jClient.arrayField "roles") "rolename")
      { s with localClients := addLast s.localClients s.next client, next := s.next + 1 }
  | _, _, _ => some s

def clientsConfigLoad (tree : Json) (s : Store) : Option (Option Store) :=
  loadArray tree "clients" (loadClient crypto)
    (fun s => { s with localClients := sortByName (·.username) s.localClients }) s

def loadGroupRoles (g : Addr) (roles : List (Bytes × Int32)) (s : Store) : Option Store :=
  roles.foldlM (fun s m => do
    let group ← s.localGroups.get g
    let (_, s) ← rolelistGroupAdd g group (s.rolesFind m.1) m.2 s
    return s) s

def loadGroup (jGroup : Json) (s : Store) : Option Store :=
  match jGroup.isObject, jGroup.getObjectItem "groupname" with
  | true, some (.string groupname) => do
    let group : Group :=
      ⟨groupname, textOf jGroup "textname", textOf jGroup "textdescription", [], []⟩
    let g := s.next
    let s := { s with localGroups := addLast s.localGroups g group, next := g + 1 }
    let s ← loadGroupRoles g (Json.members (jGroup.arrayField "roles") "rolename") s
    groupAddClients groupname (Json.members (jGroup.arrayField "clients") "username") s
  | _, _ => some s

def loadAnonymousGroup (tree : Json) (s : Store) : Store :=
  match tree.getObjectItem "anonymousGroup" with
  | some (.string groupname) =>
    { s with dynsecAnonymousGroup := (s.groupsFind groupname).map Prod.fst }
  | _ => s

/-- `dynsec_groups__config_load`. The anonymous group is looked up if there are `"groups"`. -/
def groupsConfigLoad (tree : Json) (s : Store) : Option (Option Store) :=
  loadArray tree "groups" loadGroup
    (fun s => loadAnonymousGroup tree
      { s with localGroups := sortByName (·.groupname) s.localGroups }) s

/-- `dynsec__config_load`, after the file has been parsed. An error leaves what was loaded
before. -/
def configLoadTree (tree : Json) (s : Store) : Option Store := do
  let s := generalConfigLoad tree s
  match ← rolesConfigLoad tree s with
  | none => return s
  | some s =>
    match ← clientsConfigLoad crypto tree s with
    | none => return s
    | some s =>
      match ← groupsConfigLoad tree s with
      | none => return s
      | some s => return s

def configLoad (file : Bytes) (s : Store) : Option Store :=
  if file = [] then some s
  else
    match JsonLibrary.parse file with
    | none => some s
    | some tree => configLoadTree crypto tree s

end AdaptiveMqtt.Dynsec
