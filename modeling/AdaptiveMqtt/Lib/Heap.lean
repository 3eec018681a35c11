import Mathlib

/-!
# Finite heaps

A heap is a finite map from addresses to cells: an association list without
repeated keys, read with `get`, written with `set` and shortened with `del`.
`sum w` adds up a weight over all cells; `sum_set` and `sum_del` say how a write
and a deletion change it.
-/

namespace AdaptiveMqtt.Lib

/-- A finite map. -/
abbrev Heap (κ α : Type) := AList fun _ : κ => α

namespace Heap

variable {κ α : Type} [DecidableEq κ]

/-- The cell at an address. -/
def get (h : Heap κ α) (k : κ) : Option α := AList.lookup k h

/-- Write a cell. -/
def set (h : Heap κ α) (k : κ) (v : α) : Heap κ α := AList.insert k v h

/-- Free a cell. -/
def del (h : Heap κ α) (k : κ) : Heap κ α := AList.erase k h

/-- Rewrite the cell at an address, if there is one. -/
def modify (h : Heap κ α) (k : κ) (f : α → α) : Heap κ α :=
  match h.get k with
  | none => h
  | some v => h.set k (f v)

@[simp] theorem get_empty (k : κ) : (∅ : Heap κ α).get k = none := rfl

@[simp] theorem get_set_self (h : Heap κ α) (k : κ) (v : α) : (h.set k v).get k = some v :=
  AList.lookup_insert h

theorem get_set_ne (h : Heap κ α) {k k' : κ} (v : α) (hk : k' ≠ k) :
    (h.set k v).get k' = h.get k' :=
  AList.lookup_insert_ne hk

theorem get_set (h : Heap κ α) (k k' : κ) (v : α) :
    (h.set k v).get k' = if k' = k then some v else h.get k' := by
  split
  · next e => rw [e, get_set_self]
  · next e => rw [get_set_ne h v e]

theorem get_set_empty {k k' : κ} {v v' : α} (h : ((∅ : Heap κ α).set k v).get k' = some v') :
    k' = k ∧ v' = v := by
  rw [get_set] at h
  split at h
  · rename_i he
    cases h
    exact ⟨he, rfl⟩
  · cases h

theorem set_set (h : Heap κ α) (k : κ) (v v' : α) : (h.set k v).set k v' = h.set k v' :=
  AList.insert_insert h

@[simp] theorem get_del_self (h : Heap κ α) (k : κ) : (h.del k).get k = none :=
  AList.lookup_erase k h

theorem get_del_ne (h : Heap κ α) {k k' : κ} (hk : k' ≠ k) : (h.del k).get k' = h.get k' :=
  AList.lookup_erase_ne hk

theorem get_del (h : Heap κ α) (k k' : κ) :
    (h.del k).get k' = if k' = k then none else h.get k' := by
  split
  · next e => rw [e, get_del_self]
  · next e => rw [get_del_ne h e]

theorem del_of_none {h : Heap κ α} {k : κ} (hk : h.get k = none) : h.del k = h := by
  refine AList.ext ?_
  exact List.kerase_of_notMem_keys fun hm => absurd (AList.lookup_eq_none.mp hk) (not_not.mpr hm)

theorem get_modify (h : Heap κ α) (k k' : κ) (f : α → α) :
    (h.modify k f).get k' = if k' = k then (h.get k).map f else h.get k' := by
  unfold modify
  cases hg : h.get k with
  | none =>
    by_cases e : k' = k
    · simp [e, hg]
    · simp [e]
  | some v => simp [get_set]

theorem get_modify_ne (h : Heap κ α) {k k' : κ} (f : α → α) (hk : k' ≠ k) :
    (h.modify k f).get k' = h.get k' := by
  rw [get_modify, if_neg hk]

theorem mem_keys_iff (h : Heap κ α) (k : κ) : k ∈ h.keys ↔ ∃ v, h.get k = some v := by
  rw [← AList.mem_keys, ← AList.lookup_isSome, Option.isSome_iff_exists]
  rfl

theorem mem_entries_iff (h : Heap κ α) (k : κ) (v : α) : ⟨k, v⟩ ∈ h.entries ↔ h.get k = some v :=
  AList.mem_lookup_iff.symm

/-- A heap with all the prefixes of a list as keys has as many keys as the list has elements. -/
theorem length_le_keys {β : Type} (h : Heap (List β) α) (p r : List β)
    (hr : ∀ i ≤ r.length, p ++ r.take i ∈ h.keys) : r.length ≤ h.keys.length := by
  have hlen : ((List.range r.length).map fun i => p ++ r.take i).length = r.length := by simp
  rw [← hlen]
  refine (List.subperm_of_subset ?_ fun q hq => ?_).length_le
  · refine List.Nodup.map_on ?_ List.nodup_range
    intro i hi j hj he
    have := congrArg List.length he
    rw [List.mem_range] at hi hj
    simp only [List.length_append, List.length_take] at this
    omega
  · obtain ⟨i, hi, rfl⟩ := List.mem_map.mp hq
    exact hr i (List.mem_range.mp hi).le

/-! ## Sums over cells -/

/-- The weight of all cells. -/
def sum (h : Heap κ α) (w : κ → α → Nat) : Nat := (h.entries.map fun e => w e.1 e.2).sum

omit [DecidableEq κ] in
@[simp] theorem sum_empty (w : κ → α → Nat) : (∅ : Heap κ α).sum w = 0 := rfl

theorem sum_kerase (w : κ → α → Nat) (k : κ) :
    ∀ {l : List (Sigma fun _ : κ => α)}, l.NodupKeys →
      ((l.kerase k).map fun e => w e.1 e.2).sum + (l.dlookup k).elim 0 (w k) =
        (l.map fun e => w e.1 e.2).sum
  | [], _ => rfl
  | ⟨k', v⟩ :: l, hnd => by
    by_cases hk : k = k'
    · subst hk
      simp [Nat.add_comm]
    · have ih := sum_kerase w k (l := l) (List.nodupKeys_cons.mp hnd).2
      rw [List.kerase_cons_ne hk, List.dlookup_cons_ne _ _ hk]
      simp only [List.map_cons, List.sum_cons]
      omega

theorem sum_set (h : Heap κ α) (w : κ → α → Nat) (k : κ) (v : α) :
    (h.set k v).sum w + (h.get k).elim 0 (w k) = h.sum w + w k v := by
  have hk := sum_kerase w k h.nodupKeys
  have hs : (h.set k v).sum w = w k v + ((h.entries.kerase k).map fun e => w e.1 e.2).sum := by
    unfold sum set
    rw [AList.entries_insert, List.map_cons, List.sum_cons]
  rw [hs]
  unfold sum
  rw [← hk]
  have : h.get k = h.entries.dlookup k := rfl
  rw [this]
  omega

theorem sum_del (h : Heap κ α) (w : κ → α → Nat) (k : κ) :
    (h.del k).sum w + (h.get k).elim 0 (w k) = h.sum w :=
  sum_kerase w k h.nodupKeys

theorem sum_set_new {h : Heap κ α} (w : κ → α → Nat) {k : κ} (v : α) (hk : h.get k = none) :
    (h.set k v).sum w = h.sum w + w k v := by
  have := sum_set h w k v
  rw [hk] at this
  simpa using this

theorem sum_set_old {h : Heap κ α} (w : κ → α → Nat) {k : κ} {u : α} (v : α)
    (hk : h.get k = some u) : (h.set k v).sum w + w k u = h.sum w + w k v := by
  have := sum_set h w k v
  rw [hk] at this
  simpa using this

/-- Rewriting a cell without changing its weight. -/
theorem sum_modify {h : Heap κ α} {w : κ → α → Nat} {k : κ} {f : α → α}
    (hf : ∀ v, w k (f v) = w k v) : (h.modify k f).sum w = h.sum w := by
  unfold modify
  split
  · rfl
  · rename_i v hv
    have := sum_set_old w (f v) hv
    rw [hf v] at this
    omega

theorem sum_congr {h : Heap κ α} {w w' : κ → α → Nat}
    (hw : ∀ k v, h.get k = some v → w k v = w' k v) : h.sum w = h.sum w' := by
  unfold sum
  congr 1
  apply List.map_congr_left
  rintro ⟨k, v⟩ he
  exact hw k v ((mem_entries_iff h k v).mp he)

theorem le_sum {h : Heap κ α} (w : κ → α → Nat) {k : κ} {v : α} (hk : h.get k = some v) :
    w k v ≤ h.sum w := by
  have := sum_del h w k
  rw [hk] at this
  simp only [Option.elim_some] at this
  omega

end Heap

end AdaptiveMqtt.Lib
