import AdaptiveMqtt.Lib.Agenda

/-!
# Ordered tables

A table keeps objects at addresses, in an order of its own: it is a heap and a list at once. No
address occurs twice. `get` reads by address; going through `entries` visits the objects in
their order.
-/

namespace AdaptiveMqtt.Lib

/-- Objects at addresses, in an order. -/
@[ext] structure Table (κ α : Type) where
  entries : List (κ × α)
  nodup : (entries.map Prod.fst).Nodup

namespace Table

variable {κ α : Type} [DecidableEq κ] {t : Table κ α} {k k' : κ} {v v' : α} {f : α → α}
  {stay : α → Bool}

def empty : Table κ α := ⟨[], List.nodup_nil⟩

/-- The object at an address. -/
def get (t : Table κ α) (k : κ) : Option α := (t.entries.find? (·.1 = k)).map Prod.snd

/-- The object is there. -/
def live (t : Table κ α) (k : κ) : Bool := (t.get k).isSome

/-- The first object of a kind. -/
def search (t : Table κ α) (p : α → Bool) : Option (κ × α) := t.entries.find? fun e => p e.2

theorem keys_modify (l : List (κ × α)) (k : κ) (f : α → α) :
    (l.map fun e => if e.1 = k then (e.1, f e.2) else e).map Prod.fst = l.map Prod.fst := by
  rw [List.map_map]
  refine List.map_congr_left fun e _ => ?_
  show (if e.1 = k then (e.1, f e.2) else e).1 = e.1
  split <;> rfl

/-- Rewrite the object at an address. -/
def modify (t : Table κ α) (k : κ) (f : α → α) : Table κ α where
  entries := t.entries.map fun e => if e.1 = k then (e.1, f e.2) else e
  nodup := (keys_modify t.entries k f).symm ▸ t.nodup

/-- Take an object out. -/
def erase (t : Table κ α) (k : κ) : Table κ α where
  entries := t.entries.filter (·.1 ≠ k)
  nodup := t.nodup.sublist (List.filter_sublist.map Prod.fst)

theorem nodup_insert (stay : α → Bool) (t : Table κ α) (k : κ) (v : α) :
    ((Agenda.insertBefore (fun e => stay e.2) (k, v) (t.erase k).entries).map Prod.fst).Nodup := by
  have hnot : k ∉ (t.erase k).entries.map Prod.fst := by
    intro h
    obtain ⟨e, he, hk⟩ := List.mem_map.mp h
    exact of_decide_eq_true (List.mem_filter.mp he).2 hk
  rw [((Agenda.perm_insertBefore _ _ _).map Prod.fst).nodup_iff]
  exact List.nodup_cons.mpr ⟨hnot, (t.erase k).nodup⟩

/-- Put an object behind those that stay in front of it. -/
def insert (stay : α → Bool) (t : Table κ α) (k : κ) (v : α) : Table κ α where
  entries := Agenda.insertBefore (fun e => stay e.2) (k, v) (t.erase k).entries
  nodup := nodup_insert stay t k v

/-- Put the objects in another order. -/
def sort (t : Table κ α) (le : α → α → Bool) : Table κ α where
  entries := t.entries.mergeSort fun e e' => le e.2 e'.2
  nodup := ((List.mergeSort_perm _ _).map Prod.fst).nodup_iff.mpr t.nodup

/-! ## Reading by address -/

@[simp] theorem get_empty (k : κ) : (empty : Table κ α).get k = none := rfl

theorem mem_entries_iff : (k, v) ∈ t.entries ↔ t.get k = some v := by
  unfold get
  constructor
  · intro h
    obtain ⟨l₁, l₂, hl⟩ := List.append_of_mem h
    have hnot : ∀ e ∈ l₁, ¬ e.1 = k := by
      intro e he hk
      have hnd := t.nodup
      rw [hl, List.map_append, List.map_cons] at hnd
      exact (List.nodup_append.mp hnd).2.2 e.1 (List.mem_map_of_mem he) k List.mem_cons_self hk
    rw [hl, List.find?_append, List.find?_eq_none.mpr fun e he => by simpa using hnot e he]
    simp
  · intro h
    obtain ⟨e, he, rfl⟩ := Option.map_eq_some_iff.mp h
    have hk := List.find?_some he
    rw [decide_eq_true_eq] at hk
    rw [← hk]
    exact List.mem_of_find?_eq_some he

theorem mem_entries {e : κ × α} (he : e ∈ t.entries) : t.get e.1 = some e.2 :=
  mem_entries_iff.mp he

theorem get_modify (t : Table κ α) (k k' : κ) (f : α → α) :
    (t.modify k f).get k' = if k' = k then (t.get k).map f else t.get k' := by
  have hmem : ∀ v, (k', v) ∈ (t.modify k f).entries ↔
      ∃ e ∈ t.entries, (if e.1 = k then (e.1, f e.2) else e) = (k', v) := fun v =>
    List.mem_map
  refine Option.ext fun v => ?_
  rw [← mem_entries_iff, hmem]
  split
  · rename_i hk
    rw [Option.map_eq_some_iff]
    constructor
    · rintro ⟨e, he, heq⟩
      split at heq
      · rename_i hek
        cases heq
        exact ⟨e.2, hek ▸ mem_entries he, rfl⟩
      · rename_i hek
        exact absurd (heq ▸ hk) hek
    · rintro ⟨u, hu, rfl⟩
      exact ⟨(k, u), mem_entries_iff.mpr hu, by rw [if_pos rfl, hk]⟩
  · rename_i hk
    rw [← mem_entries_iff]
    constructor
    · rintro ⟨e, he, heq⟩
      split at heq
      · rename_i hek
        cases heq
        exact absurd hek hk
      · exact heq ▸ he
    · exact fun h => ⟨(k', v), h, if_neg hk⟩

theorem get_modify_self (hv : t.get k = some v) : (t.modify k f).get k = some (f v) := by
  rw [get_modify, if_pos rfl, hv, Option.map_some]

/-- What is written depends on the object that is there. -/
theorem modify_congr {g : α → α} (hv : t.get k = some v) (hfg : f v = g v) :
    t.modify k f = t.modify k g := by
  have hsame : ∀ e ∈ t.entries, (if e.1 = k then (e.1, f e.2) else e) =
      if e.1 = k then (e.1, g e.2) else e := by
    intro e he
    split
    · rename_i hk
      have he' := mem_entries he
      rw [hk, hv] at he'
      cases he'
      rw [hfg]
    · rfl
  unfold modify
  simp only [mk.injEq]
  exact List.map_congr_left hsame

/-- What all objects show, when one changes in what it does not show. -/
theorem map_modify {β : Type} {view : α → β} (hv : t.get k = some v) (hf : view (f v) = view v) :
    (t.modify k f).entries.map (fun e => view e.2) = t.entries.map fun e => view e.2 := by
  unfold modify
  rw [List.map_map]
  refine List.map_congr_left fun e he => ?_
  show view (if e.1 = k then (e.1, f e.2) else e).2 = view e.2
  split
  · rename_i hk
    have he' := mem_entries he
    rw [hk, hv] at he'
    cases he'
    exact hf
  · rfl

/-- Rewriting an object to what it is. -/
theorem modify_eq_self (hv : t.get k = some v) (hf : f v = v) : t.modify k f = t := by
  have hid : t.modify k id = t := by
    unfold modify
    cases t
    simp only [mk.injEq]
    exact (List.map_congr_left fun e _ => ite_self e).trans (List.map_id' _)
  exact (modify_congr hv hf).trans hid

theorem get_erase (t : Table κ α) (k k' : κ) :
    (t.erase k).get k' = if k' = k then none else t.get k' := by
  refine Option.ext fun v => ?_
  rw [← mem_entries_iff, erase, List.mem_filter]
  split
  · rename_i hk
    simp [hk]
  · rename_i hk
    simp [hk, mem_entries_iff]

theorem get_insert (stay : α → Bool) (t : Table κ α) (k k' : κ) (v : α) :
    (t.insert stay k v).get k' = if k' = k then some v else t.get k' := by
  have hold := get_erase t k k'
  refine Option.ext fun u => ?_
  rw [← mem_entries_iff, insert, Agenda.mem_insertBefore, mem_entries_iff, hold]
  split
  · rename_i hk
    simp [hk, eq_comm]
  · rename_i hk
    simp [hk]

/-- A new object behind all others. -/
theorem entries_insert_last (hk : t.get k = none) (h : ∀ e ∈ t.entries, stay e.2 = true) (v : α) :
    (t.insert stay k v).entries = t.entries ++ [(k, v)] := by
  have herase : (t.erase k).entries = t.entries := by
    refine List.filter_eq_self.mpr fun e he => decide_eq_true fun hek => ?_
    have he' := mem_entries he
    rw [hek, hk] at he'
    cases he'
  show Agenda.insertBefore (fun e => stay e.2) (k, v) (t.erase k).entries = t.entries ++ [(k, v)]
  rw [herase]
  exact Agenda.insertBefore_last h

theorem live_iff : t.live k = true ↔ ∃ v, t.get k = some v := Option.isSome_iff_exists

theorem live_modify (t : Table κ α) (k k' : κ) (f : α → α) :
    (t.modify k f).live k' = t.live k' := by
  unfold live
  rw [get_modify]
  split
  · rename_i hk
    rw [Option.isSome_map, hk]
  · rfl

theorem get_modify_eq_none : (t.modify k f).get k' = none ↔ t.get k' = none := by
  have h := live_modify t k k' f
  unfold live at h
  rw [← Option.isNone_iff_eq_none, ← Option.isNone_iff_eq_none, ← Option.not_isSome,
    ← Option.not_isSome, h]

/-! ## Properties of all objects -/

/-- Every object has a property. -/
def All (Q : α → Prop) (t : Table κ α) : Prop := ∀ ⦃k v⦄, t.get k = some v → Q v

theorem All.modify {Q : α → Prop} (h : All Q t) (hv : t.get k = some v) (hf : Q (f v)) :
    All Q (t.modify k f) := by
  intro k' v' hget
  rw [get_modify] at hget
  split at hget
  · rw [hv] at hget
    cases hget
    exact hf
  · exact h hget

theorem All.erase {Q : α → Prop} (h : All Q t) (k : κ) : All Q (t.erase k) := by
  intro k' v' hget
  rw [get_erase] at hget
  split at hget
  · cases hget
  · exact h hget

theorem All.insert {Q : α → Prop} (h : All Q t) (stay : α → Bool) (k : κ) (hv : Q v) :
    All Q (t.insert stay k v) := by
  intro k' v' hget
  rw [get_insert] at hget
  split at hget
  · cases hget
    exact hv
  · exact h hget

section Order

variable {τ : Type} [LinearOrder τ] {rank : α → τ}

def InOrder (rank : α → τ) (t : Table κ α) : Prop :=
  t.entries.Pairwise fun e e' => rank e.2 ≤ rank e'.2

theorem InOrder.erase (h : InOrder rank t) (k : κ) : InOrder rank (t.erase k) :=
  h.sublist List.filter_sublist

theorem InOrder.modify (h : InOrder rank t) (hv : t.get k = some v) (hf : rank (f v) = rank v) :
    InOrder rank (t.modify k f) := by
  have hrank : ∀ e ∈ t.entries, rank (if e.1 = k then (e.1, f e.2) else e).2 = rank e.2 := by
    intro e he
    split
    · rename_i hk
      have he' := mem_entries he
      rw [hk, hv] at he'
      cases he'
      exact hf
    · rfl
  refine List.pairwise_map.mpr ?_
  refine List.Pairwise.imp_of_mem ?_ h
  intro e e' he he' hle
  rw [hrank e he, hrank e' he']
  exact hle

theorem InOrder.insert (h : InOrder rank t) {stay : α → Bool} (k : κ)
    (hstay : ∀ u, stay u = true ↔ rank u ≤ rank v) : InOrder rank (t.insert stay k v) := by
  let place : κ × α → τ := fun e => rank e.2
  have hsorted : (t.erase k).entries.Pairwise fun e e' => place e ≤ place e' := h.erase k
  refine Agenda.sorted_insertBefore hsorted (fun e _ hless => (hstay e.2).mp hless)
    fun e _ hless => ?_
  exact le_of_lt (not_le.mp (mt (hstay e.2).mpr hless))

end Order

/-! ## Searching -/

theorem search_some {p : α → Bool} (h : t.search p = some (k, v)) :
    t.get k = some v ∧ p v = true := by
  have hfind : t.entries.find? (fun e => p e.2) = some (k, v) := h
  exact ⟨mem_entries_iff.mp (List.mem_of_find?_eq_some hfind), by simpa using List.find?_some hfind⟩

theorem search_none {p : α → Bool} :
    t.search p = none ↔ ∀ k v, t.get k = some v → ¬ p v = true := by
  unfold search
  rw [List.find?_eq_none]
  exact ⟨fun h k v hg => h (k, v) (mem_entries_iff.mpr hg), fun h e he => h e.1 e.2 (mem_entries he)⟩

/-- If only one object is of the kind, the search finds it. -/
theorem search_of_unique {p : α → Bool} (hv : t.get k = some v) (hp : p v = true)
    (hone : ∀ {k' v'}, t.get k' = some v' → p v' = true → k' = k) :
    t.search p = some (k, v) := by
  cases hs : t.search p with
  | none => exact absurd hp (search_none.mp hs k v hv)
  | some e =>
    obtain ⟨hget, hpe⟩ := search_some (k := e.1) (v := e.2) hs
    obtain rfl := hone hget hpe
    rw [hv] at hget
    cases hget
    rfl

end Table

end AdaptiveMqtt.Lib
