import AdaptiveMqtt.Dynsec.Model

/-!
# Linked stores

In a linked store nothing that is referred to has been freed: every reference of a client, a
group or a role is returned. Then looking things up in the lists reads no freed memory, and the
functions that change both ends of a reference are the edits of matched references.
-/

namespace AdaptiveMqtt.Dynsec

open Lib Security Links

/-! ## References on both sides -/

namespace Store

variable (s : Store)

def clientRoles : Side Addr Bytes Int32 := fun a =>
  (s.localClients.get a).map fun client => (client.username, client.rolelist)

def clientGroups : Side Addr Bytes Int32 := fun a =>
  (s.localClients.get a).map fun client => (client.username, client.grouplist)

def groupClients : Side Addr Bytes Int32 := fun a =>
  (s.localGroups.get a).map fun group => (group.groupname, group.clientlist)

def groupRoles : Side Addr Bytes Int32 := fun a =>
  (s.localGroups.get a).map fun group => (group.groupname, group.rolelist)

def roleClients : Side Addr Bytes Int32 := fun a =>
  (s.localRoles.get a).map fun role => (role.rolename, role.clientlist)

def roleGroups : Side Addr Bytes Int32 := fun a =>
  (s.localRoles.get a).map fun role => (role.rolename, role.grouplist)

/-- Every reference is returned, and the anonymous group is there. -/
structure Linked : Prop where
  clientRole : Matched s.clientRoles s.roleClients
  clientGroup : Matched s.clientGroups s.groupClients
  groupRole : Matched s.groupRoles s.roleGroups
  anonymous : ∀ g, s.dynsecAnonymousGroup = some g → s.localGroups.live g = true
  fresh : ∀ a, s.next ≤ a →
    s.localClients.get a = none ∧ s.localGroups.get a = none ∧ s.localRoles.get a = none

end Store

theorem linked_init : Store.init.Linked := by
  have hnone : Matched (fun _ => none : Side Addr Bytes Int32) fun _ => none :=
    ⟨fun _ _ _ h => (by cases h), fun _ _ _ h => (by cases h), fun _ _ _ _ _ h => (by cases h),
      fun _ _ _ _ _ h => (by cases h), fun _ _ _ h => (by cases h), fun _ _ _ h => (by cases h)⟩
  exact ⟨hnone, hnone, hnone, fun g hg => (by cases hg), fun a _ => ⟨rfl, rfl, rfl⟩⟩

variable {s : Store} {c g r a : Addr} {client : Client} {group : Group} {role : Role}
  {prio : Int32} {base l : List Ref} {new e : Ref} {key : Bytes} {live : Addr → Bool}
  {cmp : Ref → Ref → Int32}

/-! ## Lists of live objects -/

theorem hashFind_live (h : ∀ e ∈ base, live e.addr = true) (key : Bytes) :
    hashFind live key base = some (base.find? (·.name = key)) := by
  unfold hashFind
  cases hf : base.find? (·.name = key) with
  | none => rfl
  | some e => exact if_pos (h e (List.mem_of_find?_eq_some hf))

theorem addInorder_live (h : ∀ e ∈ base, live e.addr = true) (cmp : Ref → Ref → Int32)
    (new : Ref) : addInorder live cmp new base = some (hashAddInorder cmp new base) := by
  induction base with
  | nil => rfl
  | cons e base ih =>
    obtain ⟨he, hrest⟩ := List.forall_mem_cons.mp h
    rw [addInorder, if_pos he]
    by_cases hcmp : 0 < cmp e new
    · rw [if_pos hcmp]
      unfold hashAddInorder Agenda.insertBefore
      simp only [List.takeWhile_cons, List.dropWhile_cons, decide_eq_false (not_not.mpr hcmp)]
      rfl
    · rw [if_neg hcmp, ih hrest]
      unfold hashAddInorder Agenda.insertBefore
      simp only [List.takeWhile_cons, List.dropWhile_cons, decide_eq_true hcmp]
      rfl

theorem find_eq_none : base.find? (·.name = key) = none ↔ key ∉ base.map (·.name) := by
  rw [List.find?_eq_none]
  simp

theorem isSome_find : (base.find? (·.name = key)).isSome = true ↔ key ∈ base.map (·.name) := by
  rw [← not_iff_not, ← find_eq_none, Bool.not_eq_true, Option.isSome_eq_false_iff,
    Option.isNone_iff_eq_none]

theorem listAdd_live (h : ∀ e ∈ base, live e.addr = true) (hnew : new.name ∉ base.map (·.name)) :
    listAdd live cmp base new = some (hashAddInorder cmp new base) := by
  unfold listAdd
  rw [hashFind_live h, find_eq_none.mpr hnew]
  exact addInorder_live h cmp new

theorem hashDelete_of_notMem (h : key ∉ base.map (·.name)) : hashDelete key base = base :=
  List.eraseP_of_forall_not fun e he hkey =>
    h (List.mem_map.mpr ⟨e, he, of_decide_eq_true hkey⟩)

theorem listRemove_live (h : ∀ e ∈ base, live e.addr = true) (key : Bytes) :
    listRemove live base key = some (hashDelete key base) := by
  unfold listRemove
  rw [hashFind_live h]
  cases hf : base.find? (·.name = key) with
  | none => rw [hashDelete_of_notMem (find_eq_none.mp hf)]
  | some e => rfl

theorem sublist_hashDelete (key : Bytes) (base : List Ref) :
    List.Sublist (hashDelete key base) base := List.eraseP_sublist

theorem mem_hashDelete (h : (base.map (·.name)).Nodup) :
    e ∈ hashDelete key base ↔ e ∈ base ∧ e.name ≠ key := by
  induction base with
  | nil => simp [hashDelete]
  | cons d base ih =>
    obtain ⟨hd, hrest⟩ := List.nodup_cons.mp h
    by_cases hkey : d.name = key
    · have hcons : hashDelete key (d :: base) = base :=
        List.eraseP_cons_of_pos (by simp [hkey])
      rw [hcons, List.mem_cons]
      refine ⟨fun he => ⟨.inr he, fun hname => hd ?_⟩, ?_⟩
      · have hmem := List.mem_map_of_mem (f := (·.name)) he
        rw [hname, ← hkey] at hmem
        exact hmem
      · rintro ⟨rfl | he, hne⟩
        · exact absurd hkey hne
        · exact he
    · have hcons : hashDelete key (d :: base) = d :: hashDelete key base :=
        List.eraseP_cons_of_neg (by simp [hkey])
      rw [hcons, List.mem_cons, List.mem_cons, ih hrest]
      refine ⟨?_, ?_⟩
      · rintro (rfl | he)
        · exact ⟨.inl rfl, hkey⟩
        · exact ⟨.inr he.1, he.2⟩
      · rintro ⟨rfl | he, hne⟩
        · exact .inl rfl
        · exact .inr ⟨he, hne⟩

@[simp] theorem hashDelete_head (e : Ref) (base : List Ref) : hashDelete e.name (e :: base) = base :=
  List.eraseP_cons_of_pos (by simp)

theorem perm_hashAdd : (hashAddInorder cmp new base).Perm (new :: base) :=
  Agenda.perm_insertBefore _ _ _

/-! ## What a change of an object is seen by -/

section Views

theorem clientRoles_get (hc : s.localClients.get c = some client) :
    s.clientRoles c = some (client.username, client.rolelist) := by
  rw [Store.clientRoles, hc, Option.map_some]

theorem clientGroups_get (hc : s.localClients.get c = some client) :
    s.clientGroups c = some (client.username, client.grouplist) := by
  rw [Store.clientGroups, hc, Option.map_some]

theorem groupClients_get (hg : s.localGroups.get g = some group) :
    s.groupClients g = some (group.groupname, group.clientlist) := by
  rw [Store.groupClients, hg, Option.map_some]

theorem groupRoles_get (hg : s.localGroups.get g = some group) :
    s.groupRoles g = some (group.groupname, group.rolelist) := by
  rw [Store.groupRoles, hg, Option.map_some]

theorem roleClients_get (hr : s.localRoles.get r = some role) :
    s.roleClients r = some (role.rolename, role.clientlist) := by
  rw [Store.roleClients, hr, Option.map_some]

theorem roleGroups_get (hr : s.localRoles.get r = some role) :
    s.roleGroups r = some (role.rolename, role.grouplist) := by
  rw [Store.roleGroups, hr, Option.map_some]

/-- A view of a table after an object changed. -/
theorem view_modify {α β : Type} {t : Table Addr α} {v : α} (view : α → β) (f : α → α)
    (ha : t.get a = some v) (x : Addr) :
    ((t.modify a f).get x).map view = if x = a then some (view (f v)) else (t.get x).map view := by
  rw [Table.get_modify, ha]
  split <;> rfl

theorem view_modify_keep {α β : Type} {t : Table Addr α} {v : α} {view : α → β} {f : α → α}
    (ha : t.get a = some v) (hf : view (f v) = view v) (x : Addr) :
    ((t.modify a f).get x).map view = (t.get x).map view := by
  rw [view_modify view f ha]
  split
  · rename_i hx
    rw [hx, ha, Option.map_some, hf]
  · rfl

/-- What a side shows at an address is of the object there. -/
theorem get_of_side {α : Type} {t : Table Addr α} {name : α → Bytes} {list : α → List Ref}
    {n : Bytes} (hside : (t.get a).map (fun v => (name v, list v)) = some (n, l)) :
    ∃ v, t.get a = some v ∧ name v = n ∧ list v = l := by
  obtain ⟨v, hv, heq⟩ := Option.map_eq_some_iff.mp hside
  exact ⟨v, hv, congrArg Prod.fst heq, congrArg Prod.snd heq⟩

end Views

/-! ## The objects that the lists refer to -/

namespace Store.Linked

theorem roleOfClient (h : s.Linked) (hc : s.localClients.get c = some client)
    (he : e ∈ client.rolelist) :
    ∃ role, s.localRoles.get e.addr = some role ∧ role.rolename = e.name := by
  obtain ⟨k, hk, -⟩ := h.clientRole.forth (clientRoles_get hc) e he
  obtain ⟨role, hr, hname, -⟩ := get_of_side hk
  exact ⟨role, hr, hname⟩

theorem groupOfClient (h : s.Linked) (hc : s.localClients.get c = some client)
    (he : e ∈ client.grouplist) :
    ∃ group, s.localGroups.get e.addr = some group ∧ group.groupname = e.name := by
  obtain ⟨k, hk, -⟩ := h.clientGroup.forth (clientGroups_get hc) e he
  obtain ⟨group, hg, hname, -⟩ := get_of_side hk
  exact ⟨group, hg, hname⟩

theorem roleOfGroup (h : s.Linked) (hg : s.localGroups.get g = some group)
    (he : e ∈ group.rolelist) :
    ∃ role, s.localRoles.get e.addr = some role ∧ role.rolename = e.name := by
  obtain ⟨k, hk, -⟩ := h.groupRole.forth (groupRoles_get hg) e he
  obtain ⟨role, hr, hname, -⟩ := get_of_side hk
  exact ⟨role, hr, hname⟩

theorem clientOfGroup (h : s.Linked) (hg : s.localGroups.get g = some group)
    (he : e ∈ group.clientlist) :
    ∃ client, s.localClients.get e.addr = some client ∧ client.username = e.name := by
  obtain ⟨k, hk, -⟩ := h.clientGroup.back (groupClients_get hg) e he
  obtain ⟨client, hc, hname, -⟩ := get_of_side hk
  exact ⟨client, hc, hname⟩

theorem clientOfRole (h : s.Linked) (hr : s.localRoles.get r = some role)
    (he : e ∈ role.clientlist) :
    ∃ client, s.localClients.get e.addr = some client ∧ client.username = e.name := by
  obtain ⟨k, hk, -⟩ := h.clientRole.back (roleClients_get hr) e he
  obtain ⟨client, hc, hname, -⟩ := get_of_side hk
  exact ⟨client, hc, hname⟩

theorem groupOfRole (h : s.Linked) (hr : s.localRoles.get r = some role)
    (he : e ∈ role.grouplist) :
    ∃ group, s.localGroups.get e.addr = some group ∧ group.groupname = e.name := by
  obtain ⟨k, hk, -⟩ := h.groupRole.back (roleGroups_get hr) e he
  obtain ⟨group, hg, hname, -⟩ := get_of_side hk
  exact ⟨group, hg, hname⟩

/-- The objects a client's lists refer to are there. -/
theorem clientLive (h : s.Linked) (hc : s.localClients.get c = some client) :
    (∀ e ∈ client.rolelist, s.localRoles.live e.addr = true) ∧
      ∀ e ∈ client.grouplist, s.localGroups.live e.addr = true := by
  refine ⟨fun e he => ?_, fun e he => ?_⟩
  · obtain ⟨role, hr, -⟩ := h.roleOfClient hc he
    exact Table.live_iff.mpr ⟨role, hr⟩
  · obtain ⟨group, hg, -⟩ := h.groupOfClient hc he
    exact Table.live_iff.mpr ⟨group, hg⟩

theorem groupLive (h : s.Linked) (hg : s.localGroups.get g = some group) :
    (∀ e ∈ group.rolelist, s.localRoles.live e.addr = true) ∧
      ∀ e ∈ group.clientlist, s.localClients.live e.addr = true := by
  refine ⟨fun e he => ?_, fun e he => ?_⟩
  · obtain ⟨role, hr, -⟩ := h.roleOfGroup hg he
    exact Table.live_iff.mpr ⟨role, hr⟩
  · obtain ⟨client, hc, -⟩ := h.clientOfGroup hg he
    exact Table.live_iff.mpr ⟨client, hc⟩

theorem roleLive (h : s.Linked) (hr : s.localRoles.get r = some role) :
    (∀ e ∈ role.clientlist, s.localClients.live e.addr = true) ∧
      ∀ e ∈ role.grouplist, s.localGroups.live e.addr = true := by
  refine ⟨fun e he => ?_, fun e he => ?_⟩
  · obtain ⟨client, hc, -⟩ := h.clientOfRole hr he
    exact Table.live_iff.mpr ⟨client, hc⟩
  · obtain ⟨group, hg, -⟩ := h.groupOfRole hr he
    exact Table.live_iff.mpr ⟨group, hg⟩

end Store.Linked

end AdaptiveMqtt.Dynsec
