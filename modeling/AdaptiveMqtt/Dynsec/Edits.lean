import AdaptiveMqtt.Dynsec.Linked

/-!
# Edits

What the commands do to a linked store, one thing at a time. An edit says whose rights it may
change, by `K`, and that what it brings in is of a kind `P`. Every edit keeps a store linked, so
that every command made of edits does.
-/

namespace AdaptiveMqtt.Dynsec

open Lib Security Links

/-! ## The edits of both ends -/

section Ends

variable (c g r : Addr) (client : Client) (group : Group) (role : Role) (prio : Int32) (s : Store)

def linkClientRole : Store :=
  (s.setClient c fun x =>
    { x with rolelist := hashAddInorder rolelistCmp ⟨role.rolename, r, prio⟩ client.rolelist }).setRole
      r fun x =>
        { x with clientlist := hashAddInorder clientlistCmp ⟨client.username, c, prio⟩ role.clientlist }

def unlinkClientRole : Store :=
  (s.setClient c fun x => { x with rolelist := hashDelete role.rolename client.rolelist }).setRole
    r fun x => { x with clientlist := hashDelete client.username role.clientlist }

def linkGroupRole : Store :=
  (s.setGroup g fun x =>
    { x with rolelist := hashAddInorder rolelistCmp ⟨role.rolename, r, prio⟩ group.rolelist }).setRole
      r fun x =>
        { x with grouplist := hashAddInorder grouplistCmp ⟨group.groupname, g, prio⟩ role.grouplist }

def unlinkGroupRole : Store :=
  (s.setGroup g fun x => { x with rolelist := hashDelete role.rolename group.rolelist }).setRole
    r fun x => { x with grouplist := hashDelete group.groupname role.grouplist }

def linkClientGroup : Store :=
  (s.setGroup g fun x =>
    { x with clientlist :=
        hashAddInorder clientlistCmp ⟨client.username, c, prio⟩ group.clientlist }).setClient
      c fun x =>
        { x with grouplist :=
            hashAddInorder grouplistCmp ⟨group.groupname, g, prio⟩ client.grouplist }

def unlinkClientGroup : Store :=
  (s.setGroup g fun x => { x with clientlist := hashDelete client.username group.clientlist }).setClient
    c fun x => { x with grouplist := hashDelete group.groupname client.grouplist }

end Ends

/-! ## Who is concerned -/

namespace Store

/-- The client with the username, or the clients without one, are in the group. -/
def InGroup (s : Store) (u : Option Bytes) (g : Addr) : Prop :=
  (∃ group, s.localGroups.get g = some group ∧ ∃ e ∈ group.clientlist, u = some e.name) ∨
    u = none ∧ s.dynsecAnonymousGroup = some g

/-- The client with the username, or the clients without one, have the role. -/
def Holds (s : Store) (u : Option Bytes) (r : Addr) : Prop :=
  ∃ role, s.localRoles.get r = some role ∧
    ((∃ e ∈ role.clientlist, u = some e.name) ∨ ∃ e ∈ role.grouplist, s.InGroup u e.addr)

end Store

def Client.credentials (client : Client) : Option Bytes × Pw × Bool :=
  (client.clientid, client.pw, client.disabled)

/-- What the commands may bring in. -/
structure Kind where
  prio : Int32 → Prop
  pw : Pw → Prop
  /-- No list of entries has a topic twice. -/
  single : Prop

namespace Kind

variable (P : Kind)

/-- The differences of the priorities are `int`s. -/
def Close : Prop := ∀ ⦃a b⦄, P.prio a → P.prio b → CInt.Fits (a.toInt - b.toInt)

def OfClient (client : Client) : Prop := client.clientid ≠ some [] ∧ P.pw client.pw

/-- If the priorities of entries are close, they are in their order. -/
structure OfAcls (acls : List DynsecAcl) : Prop where
  prio : ∀ acl ∈ acls, P.prio acl.priority
  sorted : P.Close → acls.Pairwise fun a b => b.priority ≤ a.priority
  nodup : P.single → (acls.map (·.topic)).Nodup

def OfRole (role : Role) : Prop := ∀ type, P.OfAcls (role.acls type).entries

end Kind

inductive Edit (K : Option Bytes → Prop) (P : Kind) : Store → Store → Prop
  | client {s c client f} : s.localClients.get c = some client →
      (f client).username = client.username → (f client).rolelist = client.rolelist →
      (f client).grouplist = client.grouplist → (P.OfClient client → P.OfClient (f client)) →
      ((f client).credentials ≠ client.credentials → K (some client.username)) →
      Edit K P s (s.setClient c f)
  | group {s g group f} : s.localGroups.get g = some group →
      (f group).groupname = group.groupname → (f group).rolelist = group.rolelist →
      (f group).clientlist = group.clientlist → Edit K P s (s.setGroup g f)
  | role {s r role f} : s.localRoles.get r = some role →
      (f role).rolename = role.rolename → (f role).clientlist = role.clientlist →
      (f role).grouplist = role.grouplist → (P.OfRole role → P.OfRole (f role)) →
      ((f role).acls ≠ role.acls → ∀ u, s.Holds u r → K u) →
      Edit K P s (s.setRole r f)
  | anonymous {s g} : s.localGroups.live g = true → K none →
      Edit K P s { s with dynsecAnonymousGroup := some g }
  | defaults {s access} : (∀ u, K u) → Edit K P s { s with defaultAccess := access }
  | linkClientRole {s c client r role prio} : s.localClients.get c = some client →
      s.localRoles.get r = some role → role.rolename ∉ client.rolelist.map (·.name) → P.prio prio →
      K (some client.username) → Edit K P s (linkClientRole c r client role prio s)
  | unlinkClientRole {s c client r role} : s.localClients.get c = some client →
      s.localRoles.get r = some role → K (some client.username) →
      Edit K P s (unlinkClientRole c r client role s)
  | linkGroupRole {s g group r role prio} : s.localGroups.get g = some group →
      s.localRoles.get r = some role → role.rolename ∉ group.rolelist.map (·.name) → P.prio prio →
      (∀ u, s.InGroup u g → K u) → Edit K P s (linkGroupRole g r group role prio s)
  | unlinkGroupRole {s g group r role} : s.localGroups.get g = some group →
      s.localRoles.get r = some role → (∀ u, s.InGroup u g → K u) →
      Edit K P s (unlinkGroupRole g r group role s)
  | linkClientGroup {s c client g group prio} : s.localClients.get c = some client →
      s.localGroups.get g = some group → client.username ∉ group.clientlist.map (·.name) →
      P.prio prio → K (some client.username) →
      Edit K P s (linkClientGroup c g client group prio s)
  | unlinkClientGroup {s c client g group} : s.localClients.get c = some client →
      s.localGroups.get g = some group → K (some client.username) →
      Edit K P s (unlinkClientGroup c g client group s)
  | addClient {s client} : P.OfClient client → client.rolelist = [] → client.grouplist = [] →
      s.clientsFind client.username = none → K (some client.username) →
      Edit K P s (s.addClient client)
  | addGroup {s group} : group.rolelist = [] → group.clientlist = [] →
      s.groupsFind group.groupname = none → Edit K P s (s.addGroup group)
  | addRole {s role} : P.OfRole role → role.clientlist = [] → role.grouplist = [] →
      s.rolesFind role.rolename = none → Edit K P s (s.addRole role)
  | freeClient {s c client} : s.localClients.get c = some client → client.rolelist = [] →
      client.grouplist = [] → K (some client.username) →
      Edit K P s { s with localClients := s.localClients.erase c }
  | freeGroup {s g group} : s.localGroups.get g = some group → group.rolelist = [] →
      group.clientlist = [] → s.dynsecAnonymousGroup ≠ some g →
      Edit K P s { s with localGroups := s.localGroups.erase g }
  | freeRole {s r role} : s.localRoles.get r = some role → role.clientlist = [] →
      role.grouplist = [] → Edit K P s { s with localRoles := s.localRoles.erase r }

abbrev Edits (K : Option Bytes → Prop) (P : Kind) : Store → Store → Prop :=
  Relation.ReflTransGen (Edit K P)

variable {s s' : Store} {c g r : Addr} {client : Client} {group : Group} {role : Role}
  {prio : Int32} {K : Option Bytes → Prop} {P : Kind}

/-! ## Looking up names -/

theorem clientsFind_some (h : s.clientsFind key = some (c, client)) :
    s.localClients.get c = some client ∧ client.username = key := by
  obtain ⟨hget, hkey⟩ := Table.search_some h
  exact ⟨hget, of_decide_eq_true hkey⟩

theorem groupsFind_some (h : s.groupsFind key = some (g, group)) :
    s.localGroups.get g = some group ∧ group.groupname = key := by
  obtain ⟨hget, hkey⟩ := Table.search_some h
  exact ⟨hget, of_decide_eq_true hkey⟩

theorem rolesFind_some (h : s.rolesFind key = some (r, role)) :
    s.localRoles.get r = some role ∧ role.rolename = key := by
  obtain ⟨hget, hkey⟩ := Table.search_some h
  exact ⟨hget, of_decide_eq_true hkey⟩

/-- A name that is not found is no object's. -/
theorem view_of_search_none {α : Type} {t : Table Addr α} {name : α → Bytes}
    {list : α → List Ref} (h : t.search (fun v => name v = key) = none) (x : Addr) (l : List Ref) :
    (t.get x).map (fun v => (name v, list v)) ≠ some (key, l) := by
  intro hx
  obtain ⟨v, hv, hname⟩ := Option.map_eq_some_iff.mp hx
  cases hname
  exact Table.search_none.mp h x v hv (decide_eq_true rfl)

/-! ## Linked stores stay linked -/

namespace Store.Linked

theorem clientsFind (h : s.Linked) (hc : s.localClients.get c = some client) :
    s.clientsFind client.username = some (c, client) := by
  refine Table.search_of_unique hc (decide_eq_true rfl) fun {c' client'} hc' hname => ?_
  refine h.clientRole.named (clientRoles_get hc') (?_ : _ = some (client'.username, client.rolelist))
  rw [clientRoles_get hc, of_decide_eq_true hname]

theorem groupsFind (h : s.Linked) (hg : s.localGroups.get g = some group) :
    s.groupsFind group.groupname = some (g, group) := by
  refine Table.search_of_unique hg (decide_eq_true rfl) fun {g' group'} hg' hname => ?_
  refine h.groupRole.named (groupRoles_get hg') (?_ : _ = some (group'.groupname, group.rolelist))
  rw [groupRoles_get hg, of_decide_eq_true hname]

theorem rolesFind (h : s.Linked) (hr : s.localRoles.get r = some role) :
    s.rolesFind role.rolename = some (r, role) := by
  refine Table.search_of_unique hr (decide_eq_true rfl) fun {r' role'} hr' hname => ?_
  refine h.clientRole.named' (roleClients_get hr') (?_ : _ = some (role'.rolename, role.clientlist))
  rw [roleClients_get hr, of_decide_eq_true hname]

theorem setClient (h : s.Linked) (hc : s.localClients.get c = some client) {f : Client → Client}
    (hname : (f client).username = client.username) (hroles : (f client).rolelist = client.rolelist)
    (hgroups : (f client).grouplist = client.grouplist) : (s.setClient c f).Linked :=
  ⟨h.clientRole.congr (view_modify_keep hc (by rw [hname, hroles])) fun _ => rfl,
    h.clientGroup.congr (view_modify_keep hc (by rw [hname, hgroups])) fun _ => rfl, h.groupRole,
    h.anonymous, fun a ha => ⟨Table.get_modify_eq_none.mpr (h.fresh a ha).1, (h.fresh a ha).2⟩⟩

theorem setGroup (h : s.Linked) (hg : s.localGroups.get g = some group) {f : Group → Group}
    (hname : (f group).groupname = group.groupname) (hroles : (f group).rolelist = group.rolelist)
    (hclients : (f group).clientlist = group.clientlist) : (s.setGroup g f).Linked :=
  ⟨h.clientRole, h.clientGroup.congr (fun _ => rfl) (view_modify_keep hg (by rw [hname, hclients])),
    h.groupRole.congr (view_modify_keep hg (by rw [hname, hroles])) fun _ => rfl,
    fun g' hg' => (Table.live_modify _ _ _ _).trans (h.anonymous g' hg'),
    fun a ha => ⟨(h.fresh a ha).1, Table.get_modify_eq_none.mpr (h.fresh a ha).2.1,
      (h.fresh a ha).2.2⟩⟩

theorem setRole (h : s.Linked) (hr : s.localRoles.get r = some role) {f : Role → Role}
    (hname : (f role).rolename = role.rolename) (hclients : (f role).clientlist = role.clientlist)
    (hgroups : (f role).grouplist = role.grouplist) : (s.setRole r f).Linked :=
  ⟨h.clientRole.congr (fun _ => rfl) (view_modify_keep hr (by rw [hname, hclients])), h.clientGroup,
    h.groupRole.congr (fun _ => rfl) (view_modify_keep hr (by rw [hname, hgroups])), h.anonymous,
    fun a ha => ⟨(h.fresh a ha).1, (h.fresh a ha).2.1,
      Table.get_modify_eq_none.mpr (h.fresh a ha).2.2⟩⟩

/-- Nothing new is used when lists change. -/
theorem fresh_modify {t : Table Addr Client} {t' : Table Addr Group} {t'' : Table Addr Role}
    (h : s.Linked) (ht : ∀ a, t.get a = none ↔ s.localClients.get a = none)
    (ht' : ∀ a, t'.get a = none ↔ s.localGroups.get a = none)
    (ht'' : ∀ a, t''.get a = none ↔ s.localRoles.get a = none) (a : Addr) (ha : s.next ≤ a) :
    t.get a = none ∧ t'.get a = none ∧ t''.get a = none := by
  obtain ⟨h₁, h₂, h₃⟩ := h.fresh a ha
  exact ⟨(ht a).mpr h₁, (ht' a).mpr h₂, (ht'' a).mpr h₃⟩

theorem linkClientRole (h : s.Linked) (hc : s.localClients.get c = some client)
    (hr : s.localRoles.get r = some role) (hnew : role.rolename ∉ client.rolelist.map (·.name))
    (prio : Int32) : (linkClientRole c r client role prio s).Linked :=
  ⟨h.clientRole.link (clientRoles_get hc) (roleClients_get hr) hnew perm_hashAdd perm_hashAdd
      (view_modify _ _ hc) (view_modify _ _ hr),
    h.clientGroup.congr (view_modify_keep hc rfl) fun _ => rfl,
    h.groupRole.congr (fun _ => rfl) (view_modify_keep hr rfl), h.anonymous,
    h.fresh_modify (fun _ => Table.get_modify_eq_none) (fun _ => Iff.rfl)
      fun _ => Table.get_modify_eq_none⟩

theorem unlinkClientRole (h : s.Linked) (hc : s.localClients.get c = some client)
    (hr : s.localRoles.get r = some role) : (unlinkClientRole c r client role s).Linked :=
  ⟨h.clientRole.unlink (clientRoles_get hc) (roleClients_get hr) (sublist_hashDelete _ _)
      (fun _ => mem_hashDelete (h.clientRole.single (clientRoles_get hc))) (sublist_hashDelete _ _)
      (fun _ => mem_hashDelete (h.clientRole.single' (roleClients_get hr)))
      (view_modify _ _ hc) (view_modify _ _ hr),
    h.clientGroup.congr (view_modify_keep hc rfl) fun _ => rfl,
    h.groupRole.congr (fun _ => rfl) (view_modify_keep hr rfl), h.anonymous,
    h.fresh_modify (fun _ => Table.get_modify_eq_none) (fun _ => Iff.rfl)
      fun _ => Table.get_modify_eq_none⟩

theorem linkGroupRole (h : s.Linked) (hg : s.localGroups.get g = some group)
    (hr : s.localRoles.get r = some role) (hnew : role.rolename ∉ group.rolelist.map (·.name))
    (prio : Int32) : (linkGroupRole g r group role prio s).Linked :=
  ⟨h.clientRole.congr (fun _ => rfl) (view_modify_keep hr rfl),
    h.clientGroup.congr (fun _ => rfl) (view_modify_keep hg rfl),
    h.groupRole.link (groupRoles_get hg) (roleGroups_get hr) hnew perm_hashAdd perm_hashAdd
      (view_modify _ _ hg) (view_modify _ _ hr),
    fun g' hg' => (Table.live_modify _ _ _ _).trans (h.anonymous g' hg'),
    h.fresh_modify (fun _ => Iff.rfl) (fun _ => Table.get_modify_eq_none)
      fun _ => Table.get_modify_eq_none⟩

theorem unlinkGroupRole (h : s.Linked) (hg : s.localGroups.get g = some group)
    (hr : s.localRoles.get r = some role) : (unlinkGroupRole g r group role s).Linked :=
  ⟨h.clientRole.congr (fun _ => rfl) (view_modify_keep hr rfl),
    h.clientGroup.congr (fun _ => rfl) (view_modify_keep hg rfl),
    h.groupRole.unlink (groupRoles_get hg) (roleGroups_get hr) (sublist_hashDelete _ _)
      (fun _ => mem_hashDelete (h.groupRole.single (groupRoles_get hg))) (sublist_hashDelete _ _)
      (fun _ => mem_hashDelete (h.groupRole.single' (roleGroups_get hr)))
      (view_modify _ _ hg) (view_modify _ _ hr),
    fun g' hg' => (Table.live_modify _ _ _ _).trans (h.anonymous g' hg'),
    h.fresh_modify (fun _ => Iff.rfl) (fun _ => Table.get_modify_eq_none)
      fun _ => Table.get_modify_eq_none⟩

theorem linkClientGroup (h : s.Linked) (hc : s.localClients.get c = some client)
    (hg : s.localGroups.get g = some group)
    (hnew : client.username ∉ group.clientlist.map (·.name)) (prio : Int32) :
    (linkClientGroup c g client group prio s).Linked :=
  ⟨h.clientRole.congr (view_modify_keep hc rfl) fun _ => rfl,
    h.clientGroup.link (clientGroups_get hc) (groupClients_get hg)
      (mt (h.clientGroup.name_mem_iff (clientGroups_get hc) (groupClients_get hg)).mp hnew)
      perm_hashAdd perm_hashAdd (view_modify _ _ hc) (view_modify _ _ hg),
    h.groupRole.congr (view_modify_keep hg rfl) fun _ => rfl,
    fun g' hg' => (Table.live_modify _ _ _ _).trans (h.anonymous g' hg'),
    h.fresh_modify (fun _ => Table.get_modify_eq_none) (fun _ => Table.get_modify_eq_none)
      fun _ => Iff.rfl⟩

theorem unlinkClientGroup (h : s.Linked) (hc : s.localClients.get c = some client)
    (hg : s.localGroups.get g = some group) : (unlinkClientGroup c g client group s).Linked :=
  ⟨h.clientRole.congr (view_modify_keep hc rfl) fun _ => rfl,
    h.clientGroup.unlink (clientGroups_get hc) (groupClients_get hg) (sublist_hashDelete _ _)
      (fun _ => mem_hashDelete (h.clientGroup.single (clientGroups_get hc)))
      (sublist_hashDelete _ _)
      (fun _ => mem_hashDelete (h.clientGroup.single' (groupClients_get hg)))
      (view_modify _ _ hc) (view_modify _ _ hg),
    h.groupRole.congr (view_modify_keep hg rfl) fun _ => rfl,
    fun g' hg' => (Table.live_modify _ _ _ _).trans (h.anonymous g' hg'),
    h.fresh_modify (fun _ => Table.get_modify_eq_none) (fun _ => Table.get_modify_eq_none)
      fun _ => Iff.rfl⟩

/-- A view of a table with a new object. -/
theorem view_insert {α β : Type} (view : α → β) (stay : α → Bool) (t : Table Addr α) (a : Addr)
    (v : α) (x : Addr) : ((t.insert stay a v).get x).map view =
      if x = a then some (view v) else (t.get x).map view := by
  rw [Table.get_insert]
  split <;> rfl

/-- A view of a table without an object. -/
theorem view_erase {α β : Type} (view : α → β) (t : Table Addr α) (a x : Addr) :
    ((t.erase a).get x).map view = if x = a then none else (t.get x).map view := by
  rw [Table.get_erase]
  split <;> rfl

theorem fresh_insert {α : Type} {t : Table Addr α} (ht : ∀ a, s.next ≤ a → t.get a = none)
    (stay : α → Bool) (v : α) (a : Addr) (ha : s.next + 1 ≤ a) :
    (t.insert stay s.next v).get a = none := by
  rw [Table.get_insert, if_neg (Nat.ne_of_gt ha)]
  exact ht a (Nat.le_of_succ_le ha)

theorem fresh_erase {α : Type} {t : Table Addr α} (a b : Addr) (ha : t.get a = none) :
    (t.erase b).get a = none := by
  rw [Table.get_erase]
  split
  · rfl
  · exact ha

theorem insertClient (h : s.Linked) (stay : Client → Bool) (hroles : client.rolelist = [])
    (hgroups : client.grouplist = []) (hnew : s.clientsFind client.username = none) :
    Linked { s with localClients := s.localClients.insert stay s.next client
                    next := s.next + 1 } := by
  have hnone := (h.fresh s.next le_rfl).1
  refine ⟨h.clientRole.create (a := s.next) ?_ (view_of_search_none hnew) fun x => ?_,
    h.clientGroup.create (a := s.next) ?_ (view_of_search_none hnew) fun x => ?_, h.groupRole,
    h.anonymous, fun a ha => ⟨?_, (h.fresh a (Nat.le_of_succ_le ha)).2⟩⟩
  · rw [clientRoles, hnone, Option.map_none]
  · rw [← hroles]
    exact view_insert _ stay _ _ _ x
  · rw [clientGroups, hnone, Option.map_none]
  · rw [← hgroups]
    exact view_insert _ stay _ _ _ x
  · exact fresh_insert (fun a ha => (h.fresh a ha).1) stay client a ha

theorem insertGroup (h : s.Linked) (stay : Group → Bool) (hroles : group.rolelist = [])
    (hclients : group.clientlist = []) (hnew : s.groupsFind group.groupname = none) :
    Linked { s with localGroups := s.localGroups.insert stay s.next group
                    next := s.next + 1 } := by
  have hnone := (h.fresh s.next le_rfl).2.1
  refine ⟨h.clientRole, (h.clientGroup.symm.create (a := s.next) ?_ (view_of_search_none hnew)
    fun x => ?_).symm, h.groupRole.create (a := s.next) ?_ (view_of_search_none hnew) fun x => ?_,
    fun g hg => ?_, fun a ha => ?_⟩
  · rw [groupClients, hnone, Option.map_none]
  · rw [← hclients]
    exact view_insert _ stay _ _ _ x
  · rw [groupRoles, hnone, Option.map_none]
  · rw [← hroles]
    exact view_insert _ stay _ _ _ x
  · obtain ⟨v, hv⟩ := Table.live_iff.mp (h.anonymous g hg)
    refine Table.live_iff.mpr ?_
    simp only [Table.get_insert]
    split
    · exact ⟨group, rfl⟩
    · exact ⟨v, hv⟩
  · obtain ⟨h₁, -, h₃⟩ := h.fresh a (Nat.le_of_succ_le ha)
    exact ⟨h₁, fresh_insert (fun a ha => (h.fresh a ha).2.1) stay group a ha, h₃⟩

theorem insertRole (h : s.Linked) (stay : Role → Bool) (hclients : role.clientlist = [])
    (hgroups : role.grouplist = []) (hnew : s.rolesFind role.rolename = none) :
    Linked { s with localRoles := s.localRoles.insert stay s.next role
                    next := s.next + 1 } := by
  have hnone := (h.fresh s.next le_rfl).2.2
  refine ⟨(h.clientRole.symm.create (a := s.next) ?_ (view_of_search_none hnew) fun x => ?_).symm,
    h.clientGroup, (h.groupRole.symm.create (a := s.next) ?_ (view_of_search_none hnew)
    fun x => ?_).symm, h.anonymous, fun a ha => ?_⟩
  · rw [roleClients, hnone, Option.map_none]
  · rw [← hclients]
    exact view_insert _ stay _ _ _ x
  · rw [roleGroups, hnone, Option.map_none]
  · rw [← hgroups]
    exact view_insert _ stay _ _ _ x
  · obtain ⟨h₁, h₂, -⟩ := h.fresh a (Nat.le_of_succ_le ha)
    exact ⟨h₁, h₂, fresh_insert (fun a ha => (h.fresh a ha).2.2) stay role a ha⟩

theorem freeClient (h : s.Linked) (hc : s.localClients.get c = some client)
    (hroles : client.rolelist = []) (hgroups : client.grouplist = []) :
    Linked { s with localClients := s.localClients.erase c } := by
  refine ⟨h.clientRole.free (n := client.username) ?_ (view_erase _ _ c),
    h.clientGroup.free (n := client.username) ?_ (view_erase _ _ c), h.groupRole, h.anonymous,
    fun a ha => ⟨fresh_erase a c (h.fresh a ha).1, (h.fresh a ha).2⟩⟩
  · rw [clientRoles_get hc, hroles]
  · rw [clientGroups_get hc, hgroups]

theorem freeGroup (h : s.Linked) (hg : s.localGroups.get g = some group)
    (hroles : group.rolelist = []) (hclients : group.clientlist = [])
    (hanon : s.dynsecAnonymousGroup ≠ some g) :
    Linked { s with localGroups := s.localGroups.erase g } := by
  refine ⟨h.clientRole, (h.clientGroup.symm.free (n := group.groupname) ?_ (view_erase _ _ g)).symm,
    h.groupRole.free (n := group.groupname) ?_ (view_erase _ _ g), fun g' hg' => ?_,
    fun a ha => ⟨(h.fresh a ha).1, fresh_erase a g (h.fresh a ha).2.1, (h.fresh a ha).2.2⟩⟩
  · rw [groupClients_get hg, hclients]
  · rw [groupRoles_get hg, hroles]
  · obtain ⟨v, hv⟩ := Table.live_iff.mp (h.anonymous g' hg')
    refine Table.live_iff.mpr ⟨v, ?_⟩
    rw [Table.get_erase, if_neg fun e : g' = g => hanon (e ▸ hg'), hv]

theorem freeRole (h : s.Linked) (hr : s.localRoles.get r = some role)
    (hclients : role.clientlist = []) (hgroups : role.grouplist = []) :
    Linked { s with localRoles := s.localRoles.erase r } := by
  refine ⟨(h.clientRole.symm.free (n := role.rolename) ?_ (view_erase _ _ r)).symm, h.clientGroup,
    (h.groupRole.symm.free (n := role.rolename) ?_ (view_erase _ _ r)).symm, h.anonymous,
    fun a ha => ⟨(h.fresh a ha).1, (h.fresh a ha).2.1, fresh_erase a r (h.fresh a ha).2.2⟩⟩
  · rw [roleClients_get hr, hclients]
  · rw [roleGroups_get hr, hgroups]

end Store.Linked

/-- **Every edit keeps a store linked.** -/
theorem linked_edit (h : s.Linked) (he : Edit K P s s') : s'.Linked := by
  cases he with
  | client hc hname hroles hgroups _ _ => exact h.setClient hc hname hroles hgroups
  | group hg hname hroles hclients => exact h.setGroup hg hname hroles hclients
  | role hr hname hclients hgroups _ _ => exact h.setRole hr hname hclients hgroups
  | anonymous hg _ =>
    refine ⟨h.clientRole, h.clientGroup, h.groupRole, fun g' hg' => ?_, h.fresh⟩
    cases hg'
    exact hg
  | defaults _ => exact ⟨h.clientRole, h.clientGroup, h.groupRole, h.anonymous, h.fresh⟩
  | linkClientRole hc hr hnew _ _ => exact h.linkClientRole hc hr hnew _
  | unlinkClientRole hc hr _ => exact h.unlinkClientRole hc hr
  | linkGroupRole hg hr hnew _ _ => exact h.linkGroupRole hg hr hnew _
  | unlinkGroupRole hg hr _ => exact h.unlinkGroupRole hg hr
  | linkClientGroup hc hg hnew _ _ => exact h.linkClientGroup hc hg hnew _
  | unlinkClientGroup hc hg _ => exact h.unlinkClientGroup hc hg
  | addClient _ hroles hgroups hnew _ => exact h.insertClient _ hroles hgroups hnew
  | addGroup hroles hclients hnew => exact h.insertGroup _ hroles hclients hnew
  | addRole _ hclients hgroups hnew => exact h.insertRole _ hclients hgroups hnew
  | freeClient hc hroles hgroups _ => exact h.freeClient hc hroles hgroups
  | freeGroup hg hroles hclients hanon => exact h.freeGroup hg hroles hclients hanon
  | freeRole hr hclients hgroups => exact h.freeRole hr hclients hgroups

theorem linked_edits (h : s.Linked) (he : Edits K P s s') : s'.Linked := by
  induction he with
  | refl => exact h
  | tail _ hstep ih => exact linked_edit ih hstep

end AdaptiveMqtt.Dynsec
