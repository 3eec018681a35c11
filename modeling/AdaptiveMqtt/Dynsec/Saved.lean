import AdaptiveMqtt.Dynsec.Control
import AdaptiveMqtt.Dynsec.Order
import AdaptiveMqtt.Lib.FirstMatch

/-!
# The saved tree

The tree that a linked store is saved as, and what the fields of its objects are read as.
-/

namespace AdaptiveMqtt.Dynsec

open Lib Security Links Store

variable {s : Store} {client : Client} {group : Group} {role : Role} {base : List Ref} {g : Addr}
  {crypto : Crypto}

/-! ## The tree -/

/-- A list of references. -/
def refsJson (field : String) (base : List Ref) : List Json :=
  base.map fun e => .object ([(ascii field, .string e.name)] ++ priorityField (priority e))

def clientTree (crypto : Crypto) (client : Client) : Json :=
  .object (clientFields client ++ [(ascii "roles", .array (refsJson "rolename" client.rolelist))] ++
    pwFields crypto client.pw)

def groupTree (group : Group) : Json :=
  .object ([(ascii "groupname", .string group.groupname)]
    ++ textField "textname" group.textName ++ textField "textdescription" group.textDescription
    ++ [(ascii "roles", .array (refsJson "rolename" group.rolelist)),
      (ascii "clients", .array (refsJson "username" group.clientlist))])

def Store.anonymousName (s : Store) : Option Bytes :=
  s.dynsecAnonymousGroup.bind fun g => (s.localGroups.get g).map Group.groupname

/-- The saved store. -/
def configTree (crypto : Crypto) (s : Store) : Json :=
  .object ([(ascii "defaultACLAccess", generalConfigSave s.defaultAccess),
    (ascii "clients", .array (s.localClients.entries.map fun e => clientTree crypto e.2)),
    (ascii "groups", .array (s.localGroups.entries.map fun e => groupTree e.2))]
    ++ textField "anonymousGroup" s.anonymousName
    ++ [(ascii "roles", .array (s.localRoles.entries.map fun e => roleToJson e.2))])

theorem rolelistAllToJson_eq (h : ∀ e ∈ base, ∃ role, s.localRoles.get e.addr = some role ∧
    role.rolename = e.name) : rolelistAllToJson s base = some (.array (refsJson "rolename" base)) := by
  have hread : ∀ e ∈ base, ((s.localRoles.get e.addr).bind fun role => some (Json.object
      ([(ascii "rolename", .string role.rolename)] ++ priorityField (priority e)))) =
      some (.object ([(ascii "rolename", .string e.name)] ++ priorityField (priority e))) := by
    intro e he
    obtain ⟨role, hr, hname⟩ := h e he
    rw [hr, Option.bind_some, hname]
  unfold rolelistAllToJson
  exact congrArg (Option.bind · _) (Loop.mapM_eq hread)

theorem clientlistAllToJson_eq (h : ∀ e ∈ base, ∃ client, s.localClients.get e.addr = some client ∧
    client.username = e.name) :
    clientlistAllToJson s base = some (.array (refsJson "username" base)) := by
  have hread : ∀ e ∈ base, ((s.localClients.get e.addr).bind fun client => some (Json.object
      ([(ascii "username", .string client.username)] ++ priorityField (priority e)))) =
      some (.object ([(ascii "username", .string e.name)] ++ priorityField (priority e))) := by
    intro e he
    obtain ⟨client, hc, hname⟩ := h e he
    rw [hc, Option.bind_some, hname]
  unfold clientlistAllToJson
  exact congrArg (Option.bind · _) (Loop.mapM_eq hread)

/-- A linked store can be saved. -/
theorem configSaveTree_eq (h : s.Linked) :
    configSaveTree crypto s = some (configTree crypto s) := by
  have hclients : ∀ e ∈ s.localClients.entries, clientToJson crypto s e.2 =
      some (clientTree crypto e.2) := by
    intro e he
    have hc := Table.mem_entries he
    unfold clientToJson
    rw [rolelistAllToJson_eq fun d hd => h.roleOfClient hc hd]
    rfl
  have hgroups : ∀ e ∈ s.localGroups.entries, groupToJson s e.2 = some (groupTree e.2) := by
    intro e he
    have hg := Table.mem_entries he
    unfold groupToJson
    rw [rolelistAllToJson_eq fun d hd => h.roleOfGroup hg hd,
      clientlistAllToJson_eq fun d hd => h.clientOfGroup hg hd]
    rfl
  unfold configSaveTree configTree Store.anonymousName
  rw [Loop.mapM_eq hclients, Loop.mapM_eq hgroups]
  cases hanon : s.dynsecAnonymousGroup with
  | none => rfl
  | some g =>
    obtain ⟨group, hg⟩ := Table.live_iff.mp (h.anonymous g hanon)
    simp only [Option.bind_eq_bind, Option.bind_some, Option.mapM_some, hg, Option.map_some]
    rfl

/-! ## Reading fields -/

/-- What `cJSON_GetObjectItem` finds among fields. -/
def lookup (fields : List (Bytes × Json)) (name : String) : Option Json :=
  (fields.find? fun f => sameIgnoringCase f.1 (ascii name)).map Prod.snd

theorem lookup_nil (name : String) : lookup [] name = none := rfl

theorem lookup_cons (key : Bytes) (v : Json) (rest : List (Bytes × Json)) (name : String) :
    lookup ((key, v) :: rest) name =
      if sameIgnoringCase key (ascii name) then some v else lookup rest name := by
  unfold lookup
  rw [List.find?_cons]
  cases sameIgnoringCase key (ascii name) <;> rfl

theorem lookup_append (a b : List (Bytes × Json)) (name : String) :
    lookup (a ++ b) name = (lookup a name).or (lookup b name) := by
  unfold lookup
  rw [List.find?_append]
  cases a.find? fun f => sameIgnoringCase f.1 (ascii name) <;> rfl

theorem lookup_textField (field : String) (text : Option Bytes) (name : String) :
    lookup (textField field text) name =
      if sameIgnoringCase (ascii field) (ascii name) then text.map .string else none := by
  cases text with
  | none => simp [textField, lookup]
  | some text => exact lookup_cons _ _ [] name

theorem lookup_ite (b : Bool) (fields : List (Bytes × Json)) (name : String) :
    lookup (if b = true then fields else []) name =
      if b = true then lookup fields name else none := by
  cases b <;> rfl

variable [JsonLibrary]

theorem configSave_eq (h : s.Linked) :
    configSave crypto s = some (JsonLibrary.print (configTree crypto s)) := by
  unfold configSave
  rw [configSaveTree_eq h, Option.map_some]

variable [LawfulJsonLibrary]

theorem getObjectItem_object (fields : List (Bytes × Json)) (name : String) :
    (Json.object fields).getObjectItem name = lookup fields name :=
  LawfulJsonLibrary.getObjectItem_object fields name

theorem clientTree_fields (crypto : Crypto) (client : Client) :
    let read := (clientTree crypto client).getObjectItem
    read "username" = some (.string client.username) ∧
    read "clientid" = client.clientid.map .string ∧
    read "textname" = client.textName.map .string ∧
    read "textdescription" = client.textDescription.map .string ∧
    read "disabled" = (if client.disabled then some (.bool true) else none) ∧
    read "roles" = some (.array (refsJson "rolename" client.rolelist)) ∧
    read "salt" =
      (if client.pw.valid then some (.string (crypto.base64Encode client.pw.salt)) else none) ∧
    read "password" =
      (if client.pw.valid then some (.string (crypto.base64Encode client.pw.passwordHash))
        else none) ∧
    read "iterations" =
      (if client.pw.valid then some (.number client.pw.iterations) else none) := by
  unfold clientTree clientFields pwFields
  simp +decide [getObjectItem_object, lookup_append, lookup_cons, lookup_textField, lookup_nil,
    lookup_ite]

theorem groupTree_fields (group : Group) :
    let read := (groupTree group).getObjectItem
    read "groupname" = some (.string group.groupname) ∧
    read "textname" = group.textName.map .string ∧
    read "textdescription" = group.textDescription.map .string ∧
    read "roles" = some (.array (refsJson "rolename" group.rolelist)) ∧
    read "clients" = some (.array (refsJson "username" group.clientlist)) := by
  unfold groupTree
  simp +decide [getObjectItem_object, lookup_append, lookup_cons, lookup_textField, lookup_nil]

theorem roleToJson_fields (role : Role) :
    let read := (roleToJson role).getObjectItem
    read "rolename" = some (.string role.rolename) ∧
    read "textname" = role.textName.map .string ∧
    read "textdescription" = role.textDescription.map .string ∧
    read "acls" =
      some (.array (AclType.all.flatMap fun type => aclsToJson type (role.acls type).entries)) := by
  unfold roleToJson
  simp +decide [getObjectItem_object, lookup_append, lookup_cons, lookup_textField, lookup_nil]

theorem configTree_fields (crypto : Crypto) (s : Store) :
    let read := (configTree crypto s).getObjectItem
    read "defaultACLAccess" = some (generalConfigSave s.defaultAccess) ∧
    read "clients" = some (.array (s.localClients.entries.map fun e => clientTree crypto e.2)) ∧
    read "groups" = some (.array (s.localGroups.entries.map fun e => groupTree e.2)) ∧
    read "anonymousGroup" = s.anonymousName.map .string ∧
    read "roles" = some (.array (s.localRoles.entries.map fun e => roleToJson e.2)) := by
  unfold configTree
  simp +decide [getObjectItem_object, lookup_append, lookup_cons, lookup_textField, lookup_nil]

/-- The elements of a saved list. -/
theorem members_refsJson {field : String}
    (hfield : sameIgnoringCase (ascii field) (ascii field) = true)
    (hprio : sameIgnoringCase (ascii field) (ascii "priority") = false) (base : List Ref) :
    Json.members (refsJson field base) field = base.map fun e => (e.name, priority e) := by
  have hitem : ∀ e : Ref, (Json.object ([(ascii field, .string e.name)] ++
      priorityField (priority e))).getObjectItem field = some (.string e.name) := by
    intro e
    rw [getObjectItem_object, lookup_append, lookup_cons, if_pos hfield, Option.some_or]
  have hnum : ∀ e : Ref, (Json.object ([(ascii field, .string e.name)] ++
      priorityField (priority e))).getInt "priority" (-1) = priority e := by
    intro e
    unfold Json.getInt priorityField
    rw [getObjectItem_object, lookup_append, lookup_cons, hprio]
    by_cases he : priority e = -1
    · rw [if_neg (not_not.mpr he), he]
      rfl
    · rw [if_pos he]
      rfl
  unfold Json.members refsJson
  rw [List.filterMap_map, ← List.filterMap_eq_map]
  refine List.filterMap_congr fun e _ => ?_
  simp only [Function.comp_apply, Json.isObject, hitem, hnum]

/-! ## Reading entries -/

variable {P : Kind}

theorem aclOf_saved (type type' : AclType) (acl : DynsecAcl) :
    aclOf (ascii type'.text) (Json.acl (.object [(ascii "acltype", .string (ascii type.text)),
      (ascii "topic", .string acl.topic), (ascii "priority", .number acl.priority),
      (ascii "allow", .bool acl.allow)])) = if type = type' then some acl else none := by
  have hfields : Json.acl (.object [(ascii "acltype", .string (ascii type.text)),
      (ascii "topic", .string acl.topic), (ascii "priority", .number acl.priority),
      (ascii "allow", .bool acl.allow)]) = ⟨some (.string (ascii type.text)),
        some (.number acl.priority), some (.bool acl.allow), some (.string acl.topic)⟩ := by
    unfold Json.acl
    simp +decide [getObjectItem_object, lookup_cons, Json.field]
  rw [hfields]
  cases type <;> cases type' <;> rfl

/-- Of the entries of all lists only those of the list are read. -/
theorem filterMap_aclsToJson (type type' : AclType) (acls : List DynsecAcl) :
    ((aclsToJson type acls).map Json.acl).filterMap (aclOf (ascii type'.text)) =
      if type = type' then acls else [] := by
  unfold aclsToJson
  rw [List.map_map, List.filterMap_map]
  have hread : ∀ acl ∈ acls, (aclOf (ascii type'.text) ∘ Json.acl ∘ fun acl : DynsecAcl =>
      .object [(ascii "acltype", .string (ascii type.text)), (ascii "topic", .string acl.topic),
        (ascii "priority", .number acl.priority), (ascii "allow", .bool acl.allow)]) acl =
      if type = type' then some acl else none := fun acl _ => aclOf_saved type type' acl
  rw [List.filterMap_congr hread]
  split
  · exact List.filterMap_some
  · exact List.filterMap_none _

omit [JsonLibrary] [LawfulJsonLibrary] in
/-- Entries in their order are loaded in that order. -/
theorem foldl_hashAdd (hclose : P.Close) (acls : List DynsecAcl) : ∀ front : List DynsecAcl,
    (∀ acl ∈ front ++ acls, P.prio acl.priority) →
    (front ++ acls).Pairwise (fun a b => b.priority ≤ a.priority) →
    acls.foldl (fun acls acl => hashAddInorder insertAclCmp acl acls) front = front ++ acls := by
  induction acls with
  | nil => exact fun front _ _ => (List.append_nil front).symm
  | cons acl acls ih =>
    intro front hprio hsorted
    have hbehind : hashAddInorder insertAclCmp acl front = front ++ [acl] := by
      refine Agenda.insertBefore_last fun e he => decide_eq_true ?_
      have hle : acl.priority ≤ e.priority :=
        (List.pairwise_append.mp hsorted).2.2 e he acl List.mem_cons_self
      have hfits := hclose (hprio acl (by simp)) (hprio e (by simp [he]))
      exact fun hpos => Int32.not_lt.mpr hle ((pos_sub_of_fits hfits).mp hpos)
    have hassoc : front ++ acl :: acls = (front ++ [acl]) ++ acls := by simp
    rw [List.foldl_cons, hbehind, ih (front ++ [acl]) (hassoc ▸ hprio) (hassoc ▸ hsorted), hassoc]

/-- **The entries of a role are loaded as they were saved.** -/
theorem aclsLoad_saved (hclose : P.Close) {acls : AclType → List DynsecAcl}
    (h : ∀ type, P.OfAcls (acls type)) (type : AclType) :
    (aclsLoad (AclType.all.flatMap fun type => aclsToJson type (acls type)) type).entries =
      acls type := by
  have hread : ((AclType.all.flatMap fun type => aclsToJson type (acls type)).map
      Json.acl).filterMap (aclOf (ascii type.text)) = acls type := by
    rw [List.map_flatMap, List.filterMap_flatMap]
    simp only [filterMap_aclsToJson]
    cases type <;> simp [AclType.all]
  rw [entries_aclsLoad, aclLoad_eq, hread]
  exact foldl_hashAdd hclose (acls type) [] (h type).prio ((h type).sorted hclose)

end AdaptiveMqtt.Dynsec
