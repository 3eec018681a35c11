import AdaptiveMqtt.Sub.Model
import AdaptiveMqtt.Topic.Match

/-!
# The leaves of the tree

A leaf is addressed by its node and its group (`none` for the normal
subscriptions of the node). `SubTree.leaves` reads the leaf list at an address and
hides how a node stores it. `SubHier.Edit` says that one such list of a node is
replaced and nothing else changes; every function of `subs.c` that touches leaves
is an edit of one node, so the tree invariants are proved for edits only.
-/

namespace AdaptiveMqtt.Sub

open Lib Topic

namespace SubHier

def leaves (h : SubHier) : Option Bytes → List SubLeaf
  | none => h.subs
  | some name => ((h.findShared name).map (·.subs)).getD []

/-- The number of normal (`false`) or shared (`true`) leaves. -/
def count (h : SubHier) : Bool → Nat
  | false => h.subs.length
  | true => (h.shared.map (·.subs.length)).sum

/-- Group names are distinct and no group is empty. -/
structure Ok (h : SubHier) : Prop where
  names : (h.shared.map (·.name)).Nodup
  full : ∀ g ∈ h.shared, g.subs ≠ []

theorem ok_empty : SubHier.empty.Ok := ⟨List.nodup_nil, fun _ h => nomatch h⟩

@[simp] theorem leaves_empty (share : Option Bytes) : SubHier.empty.leaves share = [] := by
  cases share <;> rfl

@[simp] theorem count_empty (b : Bool) : SubHier.empty.count b = 0 := by cases b <;> rfl

/-- `h'` is `h` with the leaves of `share` replaced by `ls`. -/
structure Edit (share : Option Bytes) (ls : List SubLeaf) (h h' : SubHier) : Prop where
  ok : h'.Ok
  leaves_eq : ∀ s, h'.leaves s = if s = share then ls else h.leaves s
  count_eq : ∀ b, h'.count b + (if b = share.isSome then (h.leaves share).length else 0) =
    h.count b + if b = share.isSome then ls.length else 0

/-! ## Lists of groups -/

section Groups

variable {groups : List SubShared} {name : Bytes}

def groupLeaves (groups : List SubShared) (name : Bytes) : List SubLeaf :=
  ((groups.find? (·.name = name)).map (·.subs)).getD []

theorem groupLeaves_cons (g : SubShared) (groups : List SubShared) (name : Bytes) :
    groupLeaves (g :: groups) name = if g.name = name then g.subs else groupLeaves groups name := by
  unfold groupLeaves
  rw [List.find?_cons]
  by_cases h : g.name = name <;> simp [h]

theorem groupLeaves_of_notMem (h : name ∉ groups.map (·.name)) : groupLeaves groups name = [] := by
  induction groups with
  | nil => rfl
  | cons g groups ih =>
    rw [List.map_cons, List.mem_cons, not_or] at h
    rw [groupLeaves_cons, if_neg fun e => h.1 e.symm, ih h.2]

abbrev writeGroup (name : Bytes) (ls : List SubLeaf) (g : SubShared) : SubShared :=
  if g.name = name then { g with subs := ls } else g

theorem writeGroup_name (ls : List SubLeaf) (g : SubShared) :
    (writeGroup name ls g).name = g.name := by
  unfold writeGroup; split <;> rfl

theorem map_name_writeGroup (name : Bytes) (ls : List SubLeaf) (groups : List SubShared) :
    (groups.map (writeGroup name ls)).map (·.name) = groups.map (·.name) := by
  rw [List.map_map]
  exact List.map_congr_left fun g _ => writeGroup_name ls g

theorem map_writeGroup_of_notMem (ls : List SubLeaf) (h : name ∉ groups.map (·.name)) :
    groups.map (writeGroup name ls) = groups := by
  refine (List.map_congr_left fun g hg => ?_).trans (List.map_id groups)
  exact if_neg fun e => h (List.mem_map.mpr ⟨g, hg, e⟩)

theorem mem_names_tail {g : SubShared} (hn : name ∈ (g :: groups).map (·.name))
    (hg : g.name ≠ name) : name ∈ groups.map (·.name) := by
  rcases List.mem_cons.mp hn with h | h
  · exact absurd h.symm hg
  · exact h

theorem groupLeaves_write (ls : List SubLeaf) (n : Bytes) (hn : name ∈ groups.map (·.name)) :
    groupLeaves (groups.map (writeGroup name ls)) n =
      if n = name then ls else groupLeaves groups n := by
  induction groups with
  | nil => cases hn
  | cons g groups ih =>
    rw [List.map_cons, groupLeaves_cons, groupLeaves_cons, writeGroup_name]
    by_cases hg : g.name = name
    · by_cases hgn : g.name = n
      · rw [if_pos hgn, if_pos (hgn.symm.trans hg), writeGroup, if_pos hg]
      · have hne : n ≠ name := fun e => hgn (hg.trans e.symm)
        rw [if_neg hgn, if_neg hgn, if_neg hne]
        by_cases hmem : name ∈ groups.map (·.name)
        · rw [ih hmem, if_neg hne]
        · rw [map_writeGroup_of_notMem ls hmem]
    · rw [ih (mem_names_tail hn hg)]
      by_cases hgn : g.name = n
      · rw [if_pos hgn, if_pos hgn, if_neg fun e => hg (hgn.trans e), writeGroup, if_neg hg]
      · rw [if_neg hgn, if_neg hgn]

theorem sum_write (ls : List SubLeaf) (hnd : (groups.map (·.name)).Nodup)
    (hn : name ∈ groups.map (·.name)) :
    ((groups.map (writeGroup name ls)).map (·.subs.length)).sum + (groupLeaves groups name).length =
      (groups.map (·.subs.length)).sum + ls.length := by
  induction groups with
  | nil => cases hn
  | cons g groups ih =>
    rw [List.map_cons, List.nodup_cons] at hnd
    rw [List.map_cons, List.map_cons, List.sum_cons, List.map_cons, List.sum_cons,
      groupLeaves_cons]
    by_cases hg : g.name = name
    · -- the other groups have other names
      rw [map_writeGroup_of_notMem ls (hg ▸ hnd.1), if_pos hg, writeGroup, if_pos hg]
      show ls.length + _ + g.subs.length = g.subs.length + _ + ls.length
      omega
    · have := ih hnd.2 (mem_names_tail hn hg)
      rw [if_neg hg, writeGroup, if_neg hg]
      omega

theorem groupLeaves_erase (name n : Bytes) (hnd : (groups.map (·.name)).Nodup) :
    groupLeaves (groups.eraseP (·.name = name)) n =
      if n = name then [] else groupLeaves groups n := by
  induction groups with
  | nil => simp [groupLeaves]
  | cons g groups ih =>
    rw [List.map_cons, List.nodup_cons] at hnd
    by_cases hg : g.name = name
    · rw [List.eraseP_cons_of_pos (by simpa using hg), groupLeaves_cons]
      by_cases hn : n = name
      · rw [if_pos hn]
        exact groupLeaves_of_notMem (by rw [hn, ← hg]; exact hnd.1)
      · rw [if_neg hn, if_neg fun e => hn (e.symm.trans hg)]
    · rw [List.eraseP_cons_of_neg (by simpa using hg), groupLeaves_cons, groupLeaves_cons, ih hnd.2]
      by_cases hgn : g.name = n
      · rw [if_pos hgn, if_pos hgn, if_neg fun e => hg (hgn.trans e)]
      · rw [if_neg hgn, if_neg hgn]

theorem sum_erase (groups : List SubShared) (name : Bytes) :
    ((groups.eraseP (·.name = name)).map (·.subs.length)).sum + (groupLeaves groups name).length =
      (groups.map (·.subs.length)).sum := by
  induction groups with
  | nil => rfl
  | cons g groups ih =>
    rw [groupLeaves_cons]
    by_cases hg : g.name = name
    · rw [List.eraseP_cons_of_pos (by simpa using hg), if_pos hg, List.map_cons, List.sum_cons]
      omega
    · rw [List.eraseP_cons_of_neg (by simpa using hg), if_neg hg, List.map_cons, List.sum_cons,
        List.map_cons, List.sum_cons]
      omega

end Groups

/-! ## Edits of a node -/

section Edits

variable {h : SubHier} {name : Bytes} {ls : List SubLeaf}

@[simp] theorem setShared_shared (h : SubHier) (name : Bytes) (ls : List SubLeaf) :
    (h.setShared name ls).shared = h.shared.map (writeGroup name ls) := rfl

@[simp] theorem delShared_shared (h : SubHier) (name : Bytes) :
    (h.delShared name).shared = h.shared.eraseP (·.name = name) := rfl

theorem leaves_some (h : SubHier) (name : Bytes) :
    h.leaves (some name) = groupLeaves h.shared name := rfl

theorem mem_names_of_findShared {g : SubShared} (hg : h.findShared name = some g) :
    name ∈ h.shared.map (·.name) := by
  have hp := List.find?_some hg
  exact List.mem_map.mpr ⟨g, List.mem_of_find?_eq_some hg, by simpa using hp⟩

theorem notMem_names_of_findShared (hg : h.findShared name = none) :
    name ∉ h.shared.map (·.name) := by
  intro hm
  obtain ⟨g, hg', e⟩ := List.mem_map.mp hm
  have := List.find?_eq_none.mp hg g hg'
  simp [e] at this

theorem edit_normal (hok : h.Ok) (ls : List SubLeaf) : Edit none ls h { h with subs := ls } where
  ok := ⟨hok.names, hok.full⟩
  leaves_eq := by
    intro s
    cases s with
    | none => rfl
    | some n => rfl
  count_eq := by
    intro b
    cases b with
    | false => exact Nat.add_comm _ _
    | true => rfl

theorem edit_setShared (hok : h.Ok) (hn : name ∈ h.shared.map (·.name)) (hls : ls ≠ []) :
    Edit (some name) ls h (h.setShared name ls) where
  ok := by
    refine ⟨?_, fun g hg => ?_⟩
    · exact (map_name_writeGroup name ls h.shared) ▸ hok.names
    · obtain ⟨g', hg', rfl⟩ := List.mem_map.mp hg
      split
      · exact hls
      · exact hok.full g' hg'
  leaves_eq := by
    intro s
    cases s with
    | none => rfl
    | some n =>
      have := groupLeaves_write ls n hn
      simpa [leaves_some] using this
  count_eq := by
    intro b
    cases b with
    | false => rfl
    | true => exact sum_write ls hok.names hn

/-- A group that does not exist yet is created empty and filled at once. -/
theorem edit_newShared (hok : h.Ok) (hn : name ∉ h.shared.map (·.name)) (hls : ls ≠ []) :
    Edit (some name) ls h ((h.addShared name).setShared name ls) := by
  have hshared : ((h.addShared name).setShared name ls).shared = h.shared ++ [⟨name, ls⟩] := by
    simp only [setShared_shared, addShared, List.map_append, map_writeGroup_of_notMem ls hn]
    simp [writeGroup]
  have hold : h.leaves (some name) = [] := groupLeaves_of_notMem hn
  refine ⟨⟨?_, ?_⟩, ?_, ?_⟩
  · rw [hshared, List.map_append, List.nodup_append]
    refine ⟨hok.names, by simp, ?_⟩
    rintro a ha b hb rfl
    obtain rfl : a = name := by simpa using hb
    exact hn ha
  · rw [hshared]
    intro g hg
    rcases List.mem_append.mp hg with hg | hg
    · exact hok.full g hg
    · obtain rfl := List.mem_singleton.mp hg
      exact hls
  · intro s
    cases s with
    | none => rfl
    | some n =>
      rw [leaves_some, leaves_some, hshared]
      unfold groupLeaves
      rw [List.find?_append]
      by_cases e : n = name
      · subst e
        have : h.shared.find? (·.name = n) = none := by
          rw [List.find?_eq_none]
          intro g hg
          simpa using fun e => hn (List.mem_map.mpr ⟨g, hg, e⟩)
        simp [this]
      · cases hf : h.shared.find? (·.name = n) with
        | none => simp [e, Ne.symm e]
        | some g => simp [e]
  · intro b
    cases b with
    | false => rfl
    | true =>
      simp only [count, hshared, Option.isSome_some, if_true, hold, List.length_nil]
      simp

theorem edit_delShared (hok : h.Ok) (name : Bytes) :
    Edit (some name) [] h (h.delShared name) where
  ok := by
    refine ⟨?_, fun g hg => hok.full g (List.mem_of_mem_eraseP hg)⟩
    exact hok.names.sublist ((List.eraseP_sublist).map _)
  leaves_eq := by
    intro s
    cases s with
    | none => rfl
    | some n =>
      have := groupLeaves_erase name n hok.names
      simpa [leaves_some] using this
  count_eq := by
    intro b
    cases b with
    | false => rfl
    | true => exact sum_erase h.shared name

theorem edit_dropMember {context : CtxId} {g : SubShared} (hok : h.Ok)
    (hg : h.findShared name = some g) :
    Edit (some name) ((h.leaves (some name)).eraseP (·.context = context)) h
      (dropMember context g h) := by
  have hname : g.name = name := by simpa using List.find?_some hg
  have hleaves : h.leaves (some name) = g.subs := by simp [leaves, hg]
  unfold dropMember
  rw [hname, hleaves]
  simp only [List.isEmpty_iff]
  split
  · rename_i he
    rw [he]
    exact edit_delShared hok name
  · rename_i he
    exact edit_setShared hok (mem_names_of_findShared hg) he

/-- The node holds no leaf. -/
theorem bare_iff (hok : h.Ok) : (h.subs = [] ∧ h.shared = []) ↔ ∀ s, h.leaves s = [] := by
  constructor
  · rintro ⟨h1, h2⟩ s
    cases s with
    | none => exact h1
    | some n => rw [leaves_some, h2]; rfl
  · intro hall
    refine ⟨hall none, ?_⟩
    rcases hs : h.shared with _ | ⟨g, groups⟩
    · rfl
    · have := hall (some g.name)
      rw [leaves_some, hs, groupLeaves_cons, if_pos rfl] at this
      exact absurd this (hok.full g (by rw [hs]; exact List.mem_cons_self))

end Edits

end SubHier

/-! ## The tree -/

namespace SubTree

def leaves (t : SubTree) (p : Path) (share : Option Bytes) : List SubLeaf :=
  (t.nodes.get p).elim [] (·.leaves share)

/-- The node exists. -/
def has (t : SubTree) (p : Path) : Prop := (t.nodes.get p).isSome

/-- `db.subscription_count` (`false`) and `db.shared_subscription_count` (`true`). -/
def counter (t : SubTree) : Bool → Int
  | false => t.subscriptionCount
  | true => t.sharedSubscriptionCount

/-- The number of normal or shared leaves of the tree. -/
def total (t : SubTree) (b : Bool) : Nat := t.nodes.sum fun _ h => h.count b

/-- The node has neither children nor leaves. -/
def Bare (t : SubTree) (p : Path) : Prop := (∀ l, ¬ t.has (p ++ [l])) ∧ ∀ s, t.leaves p s = []

/-- What holds of every tree `subs.c` builds. -/
structure Ok (t : SubTree) : Prop where
  rooted : ∀ p, t.has p → p ≠ []
  closed : ∀ p l, p ≠ [] → t.has (p ++ [l]) → t.has p
  node : ∀ p h, t.nodes.get p = some h → h.Ok
  counted : ∀ b, t.counter b = t.total b
  once : ∀ p s, ((t.leaves p s).map (·.context)).Nodup

/-- No node is bare, except roots and perhaps `p₀`. -/
def Pruned (t : SubTree) (p₀ : Path) : Prop :=
  ∀ p, 1 < p.length → t.has p → p ≠ p₀ → ¬ t.Bare p

theorem has_iff {t : SubTree} {p : Path} : t.has p ↔ ∃ h, t.nodes.get p = some h :=
  Option.isSome_iff_exists

theorem leaves_of_get {t : SubTree} {p : Path} {h : SubHier} (hg : t.nodes.get p = some h)
    (s : Option Bytes) : t.leaves p s = h.leaves s := by
  unfold leaves
  rw [hg]
  rfl

theorem leaves_of_not_has {t : SubTree} {p : Path} (hp : ¬ t.has p) (s : Option Bytes) :
    t.leaves p s = [] := by
  unfold leaves
  rw [Option.not_isSome_iff_eq_none.mp hp]
  rfl

theorem has_of_leaves {t : SubTree} {p : Path} {s : Option Bytes} (h : t.leaves p s ≠ []) :
    t.has p := by
  by_contra hp
  exact h (leaves_of_not_has hp s)

theorem hasChildren_iff (t : SubTree) (p : Path) :
    t.hasChildren p = true ↔ ∃ l, t.has (p ++ [l]) := by
  simp only [hasChildren, List.any_eq_true, decide_eq_true_eq, has_iff, Heap.mem_keys_iff]
  constructor
  · rintro ⟨q, hq, hne, rfl⟩
    exact ⟨q.getLast hne, by rwa [List.dropLast_append_getLast hne]⟩
  · rintro ⟨l, h⟩
    exact ⟨p ++ [l], h, by simp, by simp⟩

theorem isBare_iff {t : SubTree} {p : Path} (hok : t.Ok) (hp : t.has p) :
    t.isBare p = true ↔ t.Bare p := by
  obtain ⟨h, hg⟩ := has_iff.mp hp
  have hleaves : (∀ s, t.leaves p s = []) ↔ h.subs = [] ∧ h.shared = [] := by
    rw [SubHier.bare_iff (hok.node p h hg)]
    simp only [leaves_of_get hg]
  have hkids : t.hasChildren p = false ↔ ∀ l, ¬ t.has (p ++ [l]) := by
    rw [← Bool.not_eq_true, hasChildren_iff, not_exists]
  unfold isBare Bare
  rw [hg]
  simp [hleaves, hkids, and_assoc]

theorem not_isBare_of_not_has {t : SubTree} {p : Path} (hp : ¬ t.has p) : t.isBare p = false := by
  unfold isBare
  rw [Option.not_isSome_iff_eq_none.mp hp]

/-- Every node above a node exists. -/
theorem Ok.has_above {t : SubTree} (hok : t.Ok) {p : Path} (hp : p ≠ []) :
    ∀ {r : Path}, t.has (p ++ r) → t.has p := by
  intro r
  induction r using List.reverseRecOn with
  | nil => intro h; simpa using h
  | append_singleton r l ih =>
    intro h
    refine ih (hok.closed (p ++ r) l ?_ ?_)
    · simp [hp]
    · rwa [List.append_assoc]

/-! ## Edits of the tree -/

section Edits

variable {t t' : SubTree} {p : Path} {share : Option Bytes} {ls : List SubLeaf} {h h' : SubHier}

/-- `t'` is `t` with the leaves at an address replaced by `ls`. -/
structure Rewrite (t t' : SubTree) (p : Path) (share : Option Bytes) (ls : List SubLeaf) :
    Prop where
  ok : t'.Ok
  has_iff : ∀ q, t'.has q ↔ t.has q
  leaves_eq : ∀ q s, t'.leaves q s = if q = p ∧ s = share then ls else t.leaves q s

theorem leaves_set (hn : t'.nodes = t.nodes.set p h') (q : Path) (s : Option Bytes) :
    t'.leaves q s = if q = p then h'.leaves s else t.leaves q s := by
  unfold leaves
  rw [hn, Heap.get_set]
  split <;> rfl

theorem has_set (hn : t'.nodes = t.nodes.set p h') (q : Path) : t'.has q ↔ q = p ∨ t.has q := by
  unfold has
  rw [hn, Heap.get_set]
  split <;> simp_all

/-- Editing a node edits the tree, provided the counter follows. -/
theorem rewrite_set (hok : t.Ok) (hg : t.nodes.get p = some h) (he : h.Edit share ls h')
    (hn : t'.nodes = t.nodes.set p h') (hls : (ls.map (·.context)).Nodup)
    (hc : ∀ b, t'.counter b + (if b = share.isSome then ((t.leaves p share).length : Int) else 0) =
      t.counter b + if b = share.isSome then (ls.length : Int) else 0) :
    Rewrite t t' p share ls := by
  have hp : t.has p := SubTree.has_iff.mpr ⟨h, hg⟩
  have hhas : ∀ q, t'.has q ↔ t.has q := by
    intro q
    rw [has_set hn]
    constructor
    · rintro (rfl | hq)
      · exact hp
      · exact hq
    · exact Or.inr
  have hleaves : ∀ q s, t'.leaves q s = if q = p ∧ s = share then ls else t.leaves q s := by
    intro q s
    rw [leaves_set hn]
    by_cases hq : q = p
    · subst hq
      simp only [if_true, he.leaves_eq, true_and, leaves_of_get hg]
    · simp [hq]
  refine ⟨⟨?_, ?_, ?_, ?_, ?_⟩, hhas, hleaves⟩
  · intro q hq
    exact hok.rooted q ((hhas q).mp hq)
  · intro q l hne hq
    exact (hhas q).mpr (hok.closed q l hne ((hhas _).mp hq))
  · intro q g hq
    rw [hn, Heap.get_set] at hq
    split at hq
    · obtain rfl := Option.some.inj hq
      exact he.ok
    · exact hok.node q g hq
  · intro b
    have hsum : t'.total b + h.count b = t.total b + h'.count b := by
      unfold total
      rw [hn]
      exact Heap.sum_set_old (fun _ g => g.count b) h' hg
    have hcount := he.count_eq b
    have hold := hok.counted b
    have hnew := hc b
    rw [leaves_of_get hg] at hnew
    split at hcount <;> split at hnew <;> first | contradiction | omega
  · intro q s
    rw [hleaves]
    split
    · exact hls
    · exact hok.once q s

/-- A new node carries no leaf. -/
theorem addHierEntry_spec (hok : t.Ok) (hp : p ≠ []) (hup : p.dropLast ≠ [] → t.has p.dropLast) :
    (t.addHierEntry p).Ok ∧ (∀ q, (t.addHierEntry p).has q ↔ q = p ∨ t.has q) ∧
      (∀ q s, (t.addHierEntry p).leaves q s = t.leaves q s) := by
  unfold addHierEntry
  split
  · rename_i h hg
    have hhas : t.has p := SubTree.has_iff.mpr ⟨h, hg⟩
    refine ⟨hok, fun q => ⟨Or.inr, ?_⟩, fun _ _ => rfl⟩
    rintro (rfl | hq)
    · exact hhas
    · exact hq
  · rename_i hg
    have hn : (t.setNode p .empty).nodes = t.nodes.set p .empty := rfl
    have hleaves : ∀ q s, (t.setNode p .empty).leaves q s = t.leaves q s := by
      intro q s
      rw [leaves_set hn]
      split
      · rename_i e
        rw [SubHier.leaves_empty, e, leaves_of_not_has]
        exact Option.not_isSome_iff_eq_none.mpr hg
      · rfl
    refine ⟨⟨?_, ?_, ?_, ?_, ?_⟩, has_set hn, hleaves⟩
    · intro q hq
      rcases (has_set hn q).mp hq with rfl | hq
      · exact hp
      · exact hok.rooted q hq
    · intro q l hne hq
      refine (has_set hn q).mpr (.inr ?_)
      rcases (has_set hn _).mp hq with rfl | hq
      · rw [List.dropLast_concat] at hup
        exact hup hne
      · exact hok.closed q l hne hq
    · intro q g hq
      rw [hn, Heap.get_set] at hq
      split at hq
      · obtain rfl := Option.some.inj hq
        exact SubHier.ok_empty
      · exact hok.node q g hq
    · intro b
      have hold := hok.counted b
      have hsum : (t.setNode p .empty).total b = t.total b := by
        unfold total
        rw [hn, Heap.sum_set_new _ _ hg, SubHier.count_empty, Nat.add_zero]
      rw [hsum, ← hold]
      cases b <;> rfl
    · intro q s
      rw [hleaves]
      exact hok.once q s

/-- Freeing a bare node changes no leaf. -/
theorem delNode_spec (hok : t.Ok) (hb : t.Bare p) (hp : t.has p) :
    (t.delNode p).Ok ∧ (∀ q, (t.delNode p).has q ↔ q ≠ p ∧ t.has q) ∧
      (∀ q s, (t.delNode p).leaves q s = t.leaves q s) := by
  obtain ⟨h, hg⟩ := SubTree.has_iff.mp hp
  have hget : ∀ q, (t.delNode p).nodes.get q = if q = p then none else t.nodes.get q :=
    Heap.get_del t.nodes p
  have hhas : ∀ q, (t.delNode p).has q ↔ q ≠ p ∧ t.has q := by
    intro q
    unfold has
    rw [hget]
    split <;> simp_all
  have hleaves : ∀ q s, (t.delNode p).leaves q s = t.leaves q s := by
    intro q s
    by_cases hq : q = p
    · rw [hq, hb.2 s]
      exact leaves_of_not_has (fun h => ((hhas p).mp h).1 rfl) s
    · unfold leaves
      rw [hget, if_neg hq]
  refine ⟨⟨?_, ?_, ?_, ?_, ?_⟩, hhas, hleaves⟩
  · intro q hq
    exact hok.rooted q ((hhas q).mp hq).2
  · intro q l hne hq
    have hql := ((hhas _).mp hq).2
    refine (hhas q).mpr ⟨?_, hok.closed q l hne hql⟩
    rintro rfl
    exact hb.1 l hql
  · intro q g hq
    rw [hget] at hq
    split at hq
    · cases hq
    · exact hok.node q g hq
  · intro b
    have hold := hok.counted b
    have hbare := (SubHier.bare_iff (hok.node p h hg)).mpr fun s => by
      rw [← leaves_of_get hg]; exact hb.2 s
    have hzero : h.count b = 0 := by cases b <;> simp [SubHier.count, hbare.1, hbare.2]
    have hsum : (t.delNode p).total b + h.count b = t.total b := by
      have := Heap.sum_del t.nodes (fun _ g => g.count b) p
      rw [hg] at this
      exact this
    have hctr : (t.delNode p).counter b = t.counter b := by cases b <;> rfl
    rw [hctr, hold]
    omega
  · intro q s
    rw [hleaves]
    exact hok.once q s

end Edits

end SubTree

end AdaptiveMqtt.Sub
