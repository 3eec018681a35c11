import AdaptiveMqtt.Dynsec.Edits

/-!
# The order of lists and tables

The lists of roles and groups are ordered by priority and then by name, those of clients by name,
and the tables by name. Priorities are compared by their difference, so that the order is right
if the priorities are close. Every edit keeps the order.
-/

namespace AdaptiveMqtt.Dynsec

open Lib Security Links Store

variable {s s' : Store} {c g r : Addr} {client : Client} {group : Group} {role : Role}
  {prio : Int32} {K : Option Bytes → Prop} {P : Kind} {l : List Ref} {e new : Ref} {a b : Bytes}

/-! ## Ranks -/

def chars (text : Bytes) : List Nat := text.map UInt8.toNat

theorem chars_lt : chars a < chars b ↔ a < b := by
  unfold chars
  induction a generalizing b with
  | nil => cases b <;> simp
  | cons x a ih =>
    cases b with
    | nil => simp
    | cons y b =>
      rw [List.map_cons, List.map_cons, List.cons_lt_cons_iff, List.cons_lt_cons_iff, ih,
        UInt8.toNat_inj, UInt8.lt_iff_toNat_lt]

theorem chars_inj : chars a = chars b ↔ a = b :=
  (List.map_injective_iff.mpr fun _ _ h => UInt8.toNat_inj.mp h).eq_iff

theorem pos_strcmp : 0 < strcmp a b ↔ chars b < chars a := by
  have hlt : a < b ↔ chars a < chars b := chars_lt.symm
  have hgt : b < a ↔ chars b < chars a := chars_lt.symm
  unfold strcmp
  simp only [hlt, hgt]
  split
  · rename_i h
    exact iff_of_false (by decide) (lt_asymm h)
  · split
    · rename_i h
      exact iff_of_true (by decide) h
    · rename_i h
      exact iff_of_false (by decide) h

/-- Where a reference stands: higher priorities first, then by name. -/
def rank (e : Ref) : Int ×ₗ List Nat := toLex (-(priority e).toInt, chars e.name)

theorem rank_lt {e e' : Ref} : rank e < rank e' ↔ (priority e').toInt < (priority e).toInt ∨
    (priority e).toInt = (priority e').toInt ∧ chars e.name < chars e'.name := by
  unfold rank
  rw [Prod.Lex.toLex_lt_toLex, Int.neg_lt_neg_iff, Int.neg_inj]

/-- A difference that fits compares as the ranks do. -/
theorem pos_byPriority (h : CInt.Fits ((priority new).toInt - (priority e).toInt)) :
    0 < byPriority e new ↔ rank new < rank e := by
  have hpos := pos_sub_of_fits h
  rw [rank_lt]
  unfold byPriority
  simp only
  split
  · rename_i hzero
    have heq : priority new = priority e := sub_eq_zero.mp hzero
    rw [pos_strcmp, heq]
    simp
  · rename_i hzero
    have hne : (priority new).toInt ≠ (priority e).toInt := fun heq =>
      hzero (sub_eq_zero.mpr (Int32.toInt_inj.mp heq))
    rw [hpos, Int32.lt_iff_toInt_lt]
    simp [hne]

/-! ## Ordered lists -/

/-- A list ordered by priority. -/
structure Kind.OfRefs (P : Kind) (l : List Ref) : Prop where
  prio : ∀ e ∈ l, P.prio (priority e)
  sorted : P.Close → l.Pairwise fun e e' => rank e ≤ rank e'

/-- A list ordered by name. -/
structure Kind.OfMembers (P : Kind) (l : List Ref) : Prop where
  prio : ∀ e ∈ l, P.prio (priority e)
  sorted : l.Pairwise fun e e' => chars e.name ≤ chars e'.name

theorem ofRefs_nil : P.OfRefs [] := ⟨List.forall_mem_nil _, fun _ => .nil⟩

theorem ofMembers_nil : P.OfMembers [] := ⟨List.forall_mem_nil _, .nil⟩

theorem ofRefs_add (h : P.OfRefs l) (hnew : P.prio (priority new)) :
    P.OfRefs (hashAddInorder byPriority new l) := by
  refine ⟨fun e he => ?_, fun hclose => ?_⟩
  · rcases mem_hashAdd.mp he with rfl | he
    · exact hnew
    · exact h.prio e he
  · have hpos : ∀ e ∈ l, 0 < byPriority e new ↔ rank new < rank e := fun e he =>
      pos_byPriority (hclose hnew (h.prio e he))
    refine Agenda.sorted_insertBefore (h.sorted hclose) (fun e he hless => ?_) fun e he hless => ?_
    · exact not_lt.mp (mt (hpos e he).mpr (of_decide_eq_true hless))
    · exact le_of_lt ((hpos e he).mp (not_not.mp fun hn => hless (decide_eq_true hn)))

theorem ofMembers_add (h : P.OfMembers l) (hnew : P.prio (priority new)) :
    P.OfMembers (hashAddInorder clientlistCmp new l) := by
  refine ⟨fun e he => ?_, ?_⟩
  · rcases mem_hashAdd.mp he with rfl | he
    · exact hnew
    · exact h.prio e he
  · refine Agenda.sorted_insertBefore h.sorted (fun e _ hless => ?_) fun e _ hless => ?_
    · exact not_lt.mp (mt pos_strcmp.mpr (of_decide_eq_true hless))
    · exact le_of_lt (pos_strcmp.mp (not_not.mp fun hn => hless (decide_eq_true hn)))

theorem ofRefs_delete (h : P.OfRefs l) (key : Bytes) : P.OfRefs (hashDelete key l) :=
  ⟨fun e he => h.prio e ((sublist_hashDelete key l).subset he), fun hclose =>
    (h.sorted hclose).sublist (sublist_hashDelete key l)⟩

theorem ofMembers_delete (h : P.OfMembers l) (key : Bytes) : P.OfMembers (hashDelete key l) :=
  ⟨fun e he => h.prio e ((sublist_hashDelete key l).subset he),
    h.sorted.sublist (sublist_hashDelete key l)⟩

/-! ## Ordered stores -/

def Kind.KeepsClient (P : Kind) (client : Client) : Prop :=
  P.OfClient client ∧ P.OfRefs client.rolelist ∧ P.OfRefs client.grouplist

def Kind.KeepsGroup (P : Kind) (group : Group) : Prop :=
  P.OfRefs group.rolelist ∧ P.OfMembers group.clientlist

def Kind.KeepsRole (P : Kind) (role : Role) : Prop :=
  P.OfRole role ∧ P.OfMembers role.clientlist ∧ P.OfRefs role.grouplist

structure Store.Ordered (P : Kind) (s : Store) : Prop where
  clients : s.localClients.All P.KeepsClient
  groups : s.localGroups.All P.KeepsGroup
  roles : s.localRoles.All P.KeepsRole
  usernames : s.localClients.InOrder fun client => chars client.username
  groupnames : s.localGroups.InOrder fun group => chars group.groupname
  rolenames : s.localRoles.InOrder fun role => chars role.rolename

theorem ordered_init : Store.init.Ordered P :=
  ⟨fun _ _ h => (by cases h), fun _ _ h => (by cases h), fun _ _ h => (by cases h), .nil, .nil,
    .nil⟩

theorem inNameOrder_iff {α : Type} {name : α → Bytes} {new v : α} :
    inNameOrder name new v = true ↔ chars (name v) ≤ chars (name new) := by
  unfold inNameOrder
  rw [decide_eq_true_iff, pos_strcmp, not_lt]

/-- A client changes in what is no list, or one list. -/
theorem Store.Ordered.setClient (h : s.Ordered P) (hc : s.localClients.get c = some client)
    {f : Client → Client} (hname : (f client).username = client.username)
    (hkeeps : P.KeepsClient (f client)) : (s.setClient c f).Ordered P :=
  ⟨h.clients.modify hc hkeeps, h.groups, h.roles, h.usernames.modify hc (by rw [hname]),
    h.groupnames, h.rolenames⟩

theorem Store.Ordered.setGroup (h : s.Ordered P) (hg : s.localGroups.get g = some group)
    {f : Group → Group} (hname : (f group).groupname = group.groupname)
    (hkeeps : P.KeepsGroup (f group)) : (s.setGroup g f).Ordered P :=
  ⟨h.clients, h.groups.modify hg hkeeps, h.roles, h.usernames,
    h.groupnames.modify hg (by rw [hname]), h.rolenames⟩

theorem Store.Ordered.setRole (h : s.Ordered P) (hr : s.localRoles.get r = some role)
    {f : Role → Role} (hname : (f role).rolename = role.rolename)
    (hkeeps : P.KeepsRole (f role)) : (s.setRole r f).Ordered P :=
  ⟨h.clients, h.groups, h.roles.modify hr hkeeps, h.usernames, h.groupnames,
    h.rolenames.modify hr (by rw [hname])⟩

/-- **Every edit keeps the order.** -/
theorem ordered_edit (h : s.Ordered P) (he : Edit K P s s') : s'.Ordered P := by
  cases he with
  | client hc hname hroles hgroups hkind _ =>
    obtain ⟨hown, hr, hg⟩ := h.clients hc
    exact h.setClient hc hname ⟨hkind hown, hroles.symm ▸ hr, hgroups.symm ▸ hg⟩
  | group hg hname hroles hclients =>
    obtain ⟨hr, hc⟩ := h.groups hg
    exact h.setGroup hg hname ⟨hroles.symm ▸ hr, hclients.symm ▸ hc⟩
  | role hr hname hclients hgroups hkind _ =>
    obtain ⟨hown, hc, hg⟩ := h.roles hr
    exact h.setRole hr hname ⟨hkind hown, hclients.symm ▸ hc, hgroups.symm ▸ hg⟩
  | anonymous _ _ => exact ⟨h.clients, h.groups, h.roles, h.usernames, h.groupnames, h.rolenames⟩
  | defaults _ => exact ⟨h.clients, h.groups, h.roles, h.usernames, h.groupnames, h.rolenames⟩
  | linkClientRole hc hr _ hp _ =>
    obtain ⟨hown, hcr, hcg⟩ := h.clients hc
    obtain ⟨hown', hrc, hrg⟩ := h.roles hr
    exact Store.Ordered.setRole (h.setClient hc rfl ⟨hown, ofRefs_add hcr hp, hcg⟩) hr rfl
      ⟨hown', ofMembers_add hrc hp, hrg⟩
  | unlinkClientRole hc hr _ =>
    obtain ⟨hown, hcr, hcg⟩ := h.clients hc
    obtain ⟨hown', hrc, hrg⟩ := h.roles hr
    exact Store.Ordered.setRole (h.setClient hc rfl ⟨hown, ofRefs_delete hcr _, hcg⟩) hr rfl
      ⟨hown', ofMembers_delete hrc _, hrg⟩
  | linkGroupRole hg hr _ hp _ =>
    obtain ⟨hgr, hgc⟩ := h.groups hg
    obtain ⟨hown', hrc, hrg⟩ := h.roles hr
    exact Store.Ordered.setRole (h.setGroup hg rfl ⟨ofRefs_add hgr hp, hgc⟩) hr rfl
      ⟨hown', hrc, ofRefs_add hrg hp⟩
  | unlinkGroupRole hg hr _ =>
    obtain ⟨hgr, hgc⟩ := h.groups hg
    obtain ⟨hown', hrc, hrg⟩ := h.roles hr
    exact Store.Ordered.setRole (h.setGroup hg rfl ⟨ofRefs_delete hgr _, hgc⟩) hr rfl
      ⟨hown', hrc, ofRefs_delete hrg _⟩
  | linkClientGroup hc hg _ hp _ =>
    obtain ⟨hown, hcr, hcg⟩ := h.clients hc
    obtain ⟨hgr, hgc⟩ := h.groups hg
    exact Store.Ordered.setClient (h.setGroup hg rfl ⟨hgr, ofMembers_add hgc hp⟩) hc rfl
      ⟨hown, hcr, ofRefs_add hcg hp⟩
  | unlinkClientGroup hc hg _ =>
    obtain ⟨hown, hcr, hcg⟩ := h.clients hc
    obtain ⟨hgr, hgc⟩ := h.groups hg
    exact Store.Ordered.setClient (h.setGroup hg rfl ⟨hgr, ofMembers_delete hgc _⟩) hc rfl
      ⟨hown, hcr, ofRefs_delete hcg _⟩
  | addClient hkind hroles hgroups _ _ =>
    exact ⟨h.clients.insert _ _ ⟨hkind, hroles.symm ▸ ofRefs_nil, hgroups.symm ▸ ofRefs_nil⟩,
      h.groups, h.roles, h.usernames.insert _ fun _ => inNameOrder_iff, h.groupnames, h.rolenames⟩
  | addGroup hroles hclients _ =>
    exact ⟨h.clients, h.groups.insert _ _ ⟨hroles.symm ▸ ofRefs_nil,
      hclients.symm ▸ ofMembers_nil⟩, h.roles, h.usernames,
      h.groupnames.insert _ fun _ => inNameOrder_iff, h.rolenames⟩
  | addRole hkind hclients hgroups _ =>
    exact ⟨h.clients, h.groups, h.roles.insert _ _ ⟨hkind, hclients.symm ▸ ofMembers_nil,
      hgroups.symm ▸ ofRefs_nil⟩, h.usernames, h.groupnames,
      h.rolenames.insert _ fun _ => inNameOrder_iff⟩
  | freeClient _ _ _ _ =>
    exact ⟨h.clients.erase _, h.groups, h.roles, h.usernames.erase _, h.groupnames, h.rolenames⟩
  | freeGroup _ _ _ _ =>
    exact ⟨h.clients, h.groups.erase _, h.roles, h.usernames, h.groupnames.erase _, h.rolenames⟩
  | freeRole _ _ _ =>
    exact ⟨h.clients, h.groups, h.roles.erase _, h.usernames, h.groupnames, h.rolenames.erase _⟩

theorem ordered_edits (h : s.Ordered P) (he : Edits K P s s') : s'.Ordered P := by
  induction he with
  | refl => exact h
  | tail _ hstep ih => exact ordered_edit ih hstep

end AdaptiveMqtt.Dynsec
