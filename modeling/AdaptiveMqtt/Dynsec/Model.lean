import AdaptiveMqtt.Lib.Links
import AdaptiveMqtt.Lib.Table
import AdaptiveMqtt.Lib.UtHash
import AdaptiveMqtt.Security.Dynsec

/-!
# Clients, groups and roles

The store of the dynamic security plugin. `local_clients`, `local_groups` and `local_roles` are
tables: an object is in its table from its `HASH_ADD` until it is freed. Clients, groups and
roles refer to each other by `dynsec__rolelist`, `dynsec__grouplist` and `dynsec__clientlist`,
whose elements hold pointers: a `Ref` has the address it points to and the name the object there
had when the element was made, which is its key in the list.

What reads an object that has been freed has no result: `none`. Looking up a key in a list reads
the object of the element that has it, and comparing two elements reads both. Memory never runs
out.

JSON trees are `cJSON`'s, which is not part of the plugin: what it calls of it is a parameter.
Numbers are `int`s: nothing else is ever written.
-/

namespace AdaptiveMqtt.Dynsec

open Lib Security

/-! ## JSON -/

/-- A `cJSON` tree. -/
inductive Json where
  | null
  | bool (value : Bool)
  | number (valueint : Int32)
  | string (valuestring : Bytes)
  | array (items : List Json)
  | object (fields : List (Bytes × Json))

/-- What the plugin calls of `cJSON`. -/
class JsonLibrary where
  /-- `cJSON_GetObjectItem`. -/
  getObjectItem : Json → String → Option Json
  /-- `cJSON_Print`. -/
  print : Json → Bytes
  /-- `cJSON_Parse`. -/
  parse : Bytes → Option Json

/-- What is relied on when a saved tree is read: `cJSON_GetObjectItem` gives the first field with
the name, in whatever case. -/
class LawfulJsonLibrary [JsonLibrary] : Prop where
  getObjectItem_object (fields : List (Bytes × Json)) (name : String) :
    JsonLibrary.getObjectItem (.object fields) name =
      (fields.find? fun f => sameIgnoringCase f.1 (ascii name)).map Prod.snd

namespace Json

variable [JsonLibrary]

/-- `cJSON_GetObjectItem`. -/
def getObjectItem (json : Json) (name : String) : Option Json :=
  JsonLibrary.getObjectItem json name

def getString (json : Json) (name : String) (optional : Bool) : Rc × Option Bytes :=
  match json.getObjectItem name with
  | some (string valuestring) => (Rc.success, some valuestring)
  | some _ => (Rc.inval, none)
  | none => (if optional then Rc.success else Rc.inval, none)

/-- `json_get_int` of an optional number: the value after. -/
def getInt (json : Json) (name : String) (defaultValue : Int32) : Int32 :=
  match json.getObjectItem name with
  | some (number valueint) => valueint
  | _ => defaultValue

def isObject : Json → Bool
  | object _ => true
  | _ => false

/-- What a loop over an array goes through: the objects in it that have a name, and their
priorities. -/
def members (jItems : List Json) (name : String) : List (Bytes × Int32) :=
  jItems.filterMap fun jItem =>
    match jItem.isObject, jItem.getObjectItem name with
    | true, some (string valuestring) => some (valuestring, jItem.getInt "priority" (-1))
    | _, _ => none

def arrayField (json : Json) (name : String) : List Json :=
  match json.getObjectItem name with
  | some (array items) => items
  | _ => []

def field : Json → CJson
  | bool value => .bool value
  | number valueint => .number valueint
  | string valuestring => .string valuestring
  | _ => .other

def acl (json : Json) : JAcl :=
  ⟨(json.getObjectItem "acltype").map field, (json.getObjectItem "priority").map field,
    (json.getObjectItem "allow").map field, (json.getObjectItem "topic").map field⟩

end Json

/-! ## Objects -/

abbrev Addr := Nat

/-- `struct dynsec__clientlist`, `dynsec__grouplist` and `dynsec__rolelist`. -/
abbrev Ref := Links.Ref Addr Bytes Int32

abbrev priority (r : Ref) : Int32 := r.label

structure Pw where
  passwordHash : Bytes
  salt : Bytes
  iterations : Int32
  valid : Bool
  deriving DecidableEq, Repr

/-- A `calloc`ed `struct mosquitto_pw`. -/
def Pw.zero : Pw := ⟨List.replicate 64 0, List.replicate 12 0, 0, false⟩

structure Client where
  username : Bytes
  clientid : Option Bytes
  textName : Option Bytes
  textDescription : Option Bytes
  pw : Pw
  disabled : Bool
  rolelist : List Ref
  grouplist : List Ref
  deriving DecidableEq, Repr

structure Group where
  groupname : Bytes
  textName : Option Bytes
  textDescription : Option Bytes
  rolelist : List Ref
  clientlist : List Ref
  deriving DecidableEq, Repr

/-- The lists of `struct dynsec__acls`. -/
inductive AclType where
  | publishCSend | publishCRecv
  | subscribeLiteral | subscribePattern
  | unsubscribeLiteral | unsubscribePattern
  deriving DecidableEq, Repr

namespace AclType

def all : List AclType :=
  [publishCSend, publishCRecv, subscribeLiteral, subscribePattern, unsubscribeLiteral,
    unsubscribePattern]

/-- `ACL_TYPE_PUB_C_SEND` and the others. -/
def text : AclType → String
  | publishCSend => "publishClientSend"
  | publishCRecv => "publishClientReceive"
  | subscribeLiteral => "subscribeLiteral"
  | subscribePattern => "subscribePattern"
  | unsubscribeLiteral => "unsubscribeLiteral"
  | unsubscribePattern => "unsubscribePattern"

end AclType

def hashJenMix (a b c : UInt32) : UInt32 × UInt32 × UInt32 :=
  let a := (a - b - c) ^^^ (c >>> 13)
  let b := (b - c - a) ^^^ (a <<< 8)
  let c := (c - a - b) ^^^ (b >>> 13)
  let a := (a - b - c) ^^^ (c >>> 12)
  let b := (b - c - a) ^^^ (a <<< 16)
  let c := (c - a - b) ^^^ (b >>> 5)
  let a := (a - b - c) ^^^ (c >>> 3)
  let b := (b - c - a) ^^^ (a <<< 10)
  let c := (c - a - b) ^^^ (b >>> 15)
  (a, b, c)

/-- A byte of a key, in its place in a word. Behind the end there is nothing to add. -/
def keyByte (key : Bytes) (n : Nat) (shift : UInt32) : UInt32 := (key.getD n 0).toUInt32 <<< shift

def keyWord (key : Bytes) (n : Nat) : UInt32 :=
  keyByte key n 0 + keyByte key (n + 1) 8 + keyByte key (n + 2) 16 + keyByte key (n + 3) 24

/-- The loop of `HASH_JEN` over blocks of twelve bytes, and the `switch` behind it. -/
def hashJenLoop (keylen : UInt32) : Nat → Bytes → UInt32 → UInt32 → UInt32 → UInt32
  | 0, key, i, j, hashv =>
    (hashJenMix (i + keyWord key 0) (j + keyWord key 4)
      (hashv + keylen + (keyByte key 8 8 + keyByte key 9 16 + keyByte key 10 24))).2.2
  | blocks + 1, key, i, j, hashv =>
    let (i, j, hashv) :=
      hashJenMix (i + keyWord key 0) (j + keyWord key 4) (hashv + keyWord key 8)
    hashJenLoop keylen blocks (key.drop 12) i j hashv

def hashJen (key : Bytes) : Nat :=
  (hashJenLoop (UInt32.ofNat key.length) (key.length / 12) key 0x9e3779b9 0x9e3779b9
    0xfeedbeef).toNat

/-- A list of `struct dynsec__acls`: entries with their topics as keys. -/
abbrev AclList := UtHash DynsecAcl.topic hashJen

/-- `HASH_ADD_KEYPTR_INORDER` with `insert_acl_cmp`. -/
def AclList.add (acl : DynsecAcl) (acllist : AclList) : AclList :=
  acllist.insert (fun e => ¬ 0 < insertAclCmp e acl) acl

theorem AclList.entries_add (acl : DynsecAcl) (acllist : AclList) :
    (acllist.add acl).entries = hashAddInorder insertAclCmp acl acllist.entries :=
  UtHash.entries_insert _ acllist acl

structure Role where
  rolename : Bytes
  textName : Option Bytes
  textDescription : Option Bytes
  acls : AclType → AclList
  clientlist : List Ref
  grouplist : List Ref

structure DefaultAccess where
  publishCSend : Bool
  publishCRecv : Bool
  subscribe : Bool
  unsubscribe : Bool
  deriving DecidableEq, Repr

structure Store where
  localClients : Table Addr Client
  localGroups : Table Addr Group
  localRoles : Table Addr Role
  dynsecAnonymousGroup : Option Addr
  defaultAccess : DefaultAccess
  /-- Addresses from here on have not been used. -/
  next : Addr

/-- What the plugin starts with. -/
def Store.init : Store :=
  ⟨Table.empty, Table.empty, Table.empty, none, ⟨false, false, false, false⟩, 0⟩

/-! ## Tables -/

def Store.clientsFind (s : Store) (username : Bytes) : Option (Addr × Client) :=
  s.localClients.search fun client => client.username = username

def Store.groupsFind (s : Store) (groupname : Bytes) : Option (Addr × Group) :=
  s.localGroups.search fun group => group.groupname = groupname

def Store.rolesFind (s : Store) (rolename : Bytes) : Option (Addr × Role) :=
  s.localRoles.search fun role => role.rolename = rolename

/-- `HASH_ADD_KEYPTR_INORDER` with `client_cmp`, `group_cmp` and `role_cmp`. -/
def inNameOrder {α : Type} (name : α → Bytes) (new e : α) : Bool := ¬ 0 < strcmp (name e) (name new)

def Store.addClient (s : Store) (client : Client) : Store :=
  { s with localClients := s.localClients.insert (inNameOrder (·.username) client) s.next client
           next := s.next + 1 }

def Store.addGroup (s : Store) (group : Group) : Store :=
  { s with localGroups := s.localGroups.insert (inNameOrder (·.groupname) group) s.next group
           next := s.next + 1 }

def Store.addRole (s : Store) (role : Role) : Store :=
  { s with localRoles := s.localRoles.insert (inNameOrder (·.rolename) role) s.next role
           next := s.next + 1 }

/-- Lists of an object change. -/
def Store.setClient (s : Store) (c : Addr) (f : Client → Client) : Store :=
  { s with localClients := s.localClients.modify c f }

def Store.setGroup (s : Store) (g : Addr) (f : Group → Group) : Store :=
  { s with localGroups := s.localGroups.modify g f }

def Store.setRole (s : Store) (r : Addr) (f : Role → Role) : Store :=
  { s with localRoles := s.localRoles.modify r f }

/-! ## Lists -/

def hashFind (live : Addr → Bool) (key : Bytes) (base : List Ref) : Option (Option Ref) :=
  match base.find? (·.name = key) with
  | none => some none
  | some e => if live e.addr then some (some e) else none

def hashDelete (key : Bytes) (base : List Ref) : List Ref := base.eraseP (·.name = key)

/-- `HASH_ADD_KEYPTR_INORDER` with a comparison that reads the objects. -/
def addInorder (live : Addr → Bool) (cmp : Ref → Ref → Int32) (new : Ref) :
    List Ref → Option (List Ref)
  | [] => some [new]
  | e :: base =>
    if live e.addr then
      if 0 < cmp e new then some (new :: e :: base)
      else (addInorder live cmp new base).map (e :: ·)
    else none

/-- Higher priorities first, then by name. -/
def byPriority (a b : Ref) : Int32 :=
  let prio := priority b - priority a
  if prio = 0 then strcmp a.name b.name else prio

def clientlistCmp (a b : Ref) : Int32 := strcmp a.name b.name

def grouplistCmp (a b : Ref) : Int32 := byPriority a b

def rolelistCmp (a b : Ref) : Int32 := byPriority a b

/-- The object's element goes into the list, if it is not there. -/
def listAdd (live : Addr → Bool) (cmp : Ref → Ref → Int32) (base : List Ref) (new : Ref) :
    Option (List Ref) :=
  match hashFind live new.name base with
  | none => none
  | some (some _) => some base
  | some none => addInorder live cmp new base

def clientlistAdd (s : Store) (base : List Ref) (new : Ref) : Option (List Ref) :=
  listAdd s.localClients.live clientlistCmp base new

def grouplistAdd (s : Store) (base : List Ref) (new : Ref) : Option (List Ref) :=
  listAdd s.localGroups.live grouplistCmp base new

/-- The object's element goes out of the list, if it is there. -/
def listRemove (live : Addr → Bool) (base : List Ref) (name : Bytes) : Option (List Ref) :=
  match hashFind live name base with
  | none => none
  | some (some _) => some (hashDelete name base)
  | some none => some base

def clientlistRemove (s : Store) (base : List Ref) (username : Bytes) : Option (List Ref) :=
  listRemove s.localClients.live base username

def grouplistRemove (s : Store) (base : List Ref) (groupname : Bytes) : Option (List Ref) :=
  listRemove s.localGroups.live base groupname

def rolelistRemoveRole (s : Store) (base : List Ref) (rolename : Bytes) : Option (Rc × List Ref) :=
  match hashFind s.localRoles.live rolename base with
  | none => none
  | some (some _) => some (Rc.success, hashDelete rolename base)
  | some none => some (Rc.notFound, base)

/-- `dynsec_rolelist__add`. Its comparison reads the elements' own names. -/
def rolelistAdd (s : Store) (base : List Ref) (role : Option (Addr × Role)) (prio : Int32) :
    Option (Rc × List Ref) :=
  match role with
  | none => some (Rc.inval, base)
  | some (r, role) =>
    match hashFind s.localRoles.live role.rolename base with
    | none => none
    | some (some _) => some (alreadyExists, base)
    | some none => some (Rc.success, hashAddInorder rolelistCmp ⟨role.rolename, r, prio⟩ base)

/-! ## Roles of clients and groups -/

def rolelistClientAdd (c : Addr) (client : Client) (role : Option (Addr × Role)) (prio : Int32)
    (s : Store) : Option (Rc × Store) := do
  let (rc, rolelist) ← rolelistAdd s client.rolelist role prio
  match role with
  | none => return (rc, s)
  | some (r, role) =>
    if rc ≠ Rc.success then return (rc, s)
    let s := s.setClient c fun client => { client with rolelist }
    let clientlist ← clientlistAdd s role.clientlist ⟨client.username, c, prio⟩
    return (Rc.success, s.setRole r fun role => { role with clientlist })

def rolelistClientRemove (c r : Addr) (s : Store) : Option (Rc × Store) := do
  let client ← s.localClients.get c
  let role ← s.localRoles.get r
  let (rc, rolelist) ← rolelistRemoveRole s client.rolelist role.rolename
  let s := s.setClient c fun client => { client with rolelist }
  if rc ≠ Rc.success then return (rc, s)
  match ← hashFind s.localClients.live client.username role.clientlist with
  | none => return (Rc.notFound, s)
  | some _ =>
    return (Rc.success, s.setRole r fun role =>
      { role with clientlist := hashDelete client.username role.clientlist })

def rolelistGroupAdd (g : Addr) (group : Group) (role : Option (Addr × Role)) (prio : Int32)
    (s : Store) : Option (Rc × Store) := do
  let (rc, rolelist) ← rolelistAdd s group.rolelist role prio
  match role with
  | none => return (rc, s)
  | some (r, role) =>
    if rc ≠ Rc.success then return (rc, s)
    let s := s.setGroup g fun group => { group with rolelist }
    let grouplist ← grouplistAdd s role.grouplist ⟨group.groupname, g, prio⟩
    return (Rc.success, s.setRole r fun role => { role with grouplist })

def rolelistGroupRemove (g r : Addr) (s : Store) : Option Store := do
  let group ← s.localGroups.get g
  let role ← s.localRoles.get r
  let (_, rolelist) ← rolelistRemoveRole s group.rolelist role.rolename
  let s := s.setGroup g fun group => { group with rolelist }
  let grouplist ← grouplistRemove s role.grouplist group.groupname
  return s.setRole r fun role => { role with grouplist }

/-- The loop of `dynsec_rolelist__load_from_json`. -/
def loadRoles [JsonLibrary] (s : Store) : List Json → List Ref → Option (Rc × List Ref)
  | [], rolelist => some (Rc.success, rolelist)
  | jRole :: jRoles, rolelist =>
    match jRole.getObjectItem "rolename" with
    | some (.string rolename) =>
      match s.rolesFind rolename with
      | some role =>
        match rolelistAdd s rolelist (some role) (jRole.getInt "priority" (-1)) with
        | none => none
        | some (_, rolelist) => loadRoles s jRoles rolelist
      | none => some (Rc.notFound, [])
    | _ => some (Rc.inval, rolelist)

abbrev errUserNotFound : Rc := 10000
abbrev errGroupNotFound : Rc := 10001
abbrev errListNotFound : Rc := 10002

def rolelistLoadFromJson [JsonLibrary] (s : Store) (command : Json) : Option (Rc × List Ref) :=
  match command.getObjectItem "roles" with
  | some (.array jRoles) => loadRoles s jRoles []
  | some _ => some (Rc.inval, [])
  | none => some (errListNotFound, [])

/-! ## Members of groups -/

def groupsAddClient (username groupname : Bytes) (prio : Int32) (s : Store) :
    Option (Rc × Store) :=
  match s.clientsFind username, s.groupsFind groupname with
  | none, _ => some (errUserNotFound, s)
  | some _, none => some (errGroupNotFound, s)
  | some (c, client), some (g, group) => do
    if (← hashFind s.localClients.live username group.clientlist).isSome then
      return (alreadyExists, s)
    let clientlist ← clientlistAdd s group.clientlist ⟨client.username, c, prio⟩
    let s := s.setGroup g fun group => { group with clientlist }
    let grouplist ← grouplistAdd s client.grouplist ⟨group.groupname, g, prio⟩
    return (Rc.success, s.setClient c fun client => { client with grouplist })

def groupsRemoveClient (username groupname : Bytes) (s : Store) : Option (Rc × Store) :=
  match s.clientsFind username, s.groupsFind groupname with
  | none, _ => some (errUserNotFound, s)
  | some _, none => some (errGroupNotFound, s)
  | some (c, client), some (g, group) => do
    let clientlist ← clientlistRemove s group.clientlist client.username
    let s := s.setGroup g fun group => { group with clientlist }
    let grouplist ← grouplistRemove s client.grouplist group.groupname
    return (Rc.success, s.setClient c fun client => { client with grouplist })

def clientAddGroups (username : Bytes) (groups : List (Bytes × Int32)) (s : Store) : Option Store :=
  groups.foldlM (fun s m => (groupsAddClient username m.1 m.2 s).map Prod.snd) s

def groupAddClients (groupname : Bytes) (clients : List (Bytes × Int32)) (s : Store) :
    Option Store :=
  clients.foldlM (fun s m => (groupsAddClient m.1 groupname m.2 s).map Prod.snd) s

def removeClientFromAllGroups (username : Bytes) (s : Store) : Option Store :=
  match s.clientsFind username with
  | none => some s
  | some (_, client) => client.grouplist.foldlM (fun s e => do
      let group ← s.localGroups.get e.addr
      (groupsRemoveClient username group.groupname s).map Prod.snd) s

/-- `dynsec__remove_all_clients_from_group`: an element goes after the client's. -/
def removeAllClientsFromGroup (g : Addr) (s : Store) : Option Store := do
  let group ← s.localGroups.get g
  group.clientlist.foldlM (fun s e => do
    let client ← s.localClients.get e.addr
    let grouplist ← grouplistRemove s client.grouplist group.groupname
    let s := s.setClient e.addr fun client => { client with grouplist }
    return s.setGroup g fun group => { group with clientlist := hashDelete e.name group.clientlist }) s

def clientRemoveAllRoles (c : Addr) (s : Store) : Option Store := do
  let client ← s.localClients.get c
  client.rolelist.foldlM (fun s e => (rolelistClientRemove c e.addr s).map Prod.snd) s

def clientAddNewRoles (c : Addr) (rolelist : List Ref) (s : Store) : Option Store :=
  rolelist.foldlM (fun s e => do
    let client ← s.localClients.get c
    let role ← s.localRoles.get e.addr
    (rolelistClientAdd c client (some (e.addr, role)) (priority e) s).map Prod.snd) s

def removeAllRolesFromGroup (g : Addr) (s : Store) : Option Store := do
  let group ← s.localGroups.get g
  group.rolelist.foldlM (fun s e => rolelistGroupRemove g e.addr s) s

/-! ## Kicks -/

/-- `dynsec_clientlist__kick_all`: the usernames that are kicked. -/
def clientlistKickAll (s : Store) (base : List Ref) : Option (List (Option Bytes)) :=
  base.mapM fun e => do
    let client ← s.localClients.get e.addr
    return some client.username

/-- `group__kick_all`. `none` stands for the clients without a username. -/
def groupKickAll (s : Store) (g : Addr) : Option (List (Option Bytes)) := do
  let group ← s.localGroups.get g
  let kicks ← clientlistKickAll s group.clientlist
  return (if s.dynsecAnonymousGroup = some g then [none] else []) ++ kicks

def roleKickAll (s : Store) (role : Role) : Option (List (Option Bytes)) := do
  let kicks ← clientlistKickAll s role.clientlist
  let groups ← role.grouplist.mapM fun e => groupKickAll s e.addr
  return kicks ++ groups.flatten

end AdaptiveMqtt.Dynsec
