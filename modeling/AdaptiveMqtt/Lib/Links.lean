import Mathlib

/-!
# Matched references

Objects of two kinds refer to each other. An object has a name and a list of references, each
with the name and the address of the object it refers to and a label both ends agree on. The
references are *matched* when every one of them refers to an object that is there and refers
back. The lists of both ends change together: `Matched.link` and `Matched.unlink` are the two
edits, `Matched.create` and `Matched.free` come before the first reference of an object and
after its last.
-/

namespace AdaptiveMqtt.Lib.Links

/-- A reference to an object. -/
structure Ref (κ ν π : Type) where
  name : ν
  addr : κ
  label : π
  deriving DecidableEq, Repr

variable {κ ν π : Type}

/-- The objects of one kind, each with its name and its references. -/
abbrev Side (κ ν π : Type) := κ → Option (ν × List (Ref κ ν π))

variable {A B A' B' : Side κ ν π} {a b : κ} {n m : ν} {l k l' k' : List (Ref κ ν π)} {v : π}

/-- No two objects have one name. -/
def Named (A : Side κ ν π) : Prop :=
  ∀ ⦃a a' n l l'⦄, A a = some (n, l) → A a' = some (n, l') → a = a'

/-- No object refers twice to one name. -/
def Single (A : Side κ ν π) : Prop := ∀ ⦃a n l⦄, A a = some (n, l) → (l.map (·.name)).Nodup

def Returned (A B : Side κ ν π) : Prop :=
  ∀ ⦃a n l⦄, A a = some (n, l) → ∀ r ∈ l, ∃ k, B r.addr = some (r.name, k) ∧ ⟨n, a, r.label⟩ ∈ k

structure Matched (A B : Side κ ν π) : Prop where
  forth : Returned A B
  back : Returned B A
  named : Named A
  named' : Named B
  single : Single A
  single' : Single B

theorem Matched.symm (h : Matched A B) : Matched B A :=
  ⟨h.back, h.forth, h.named', h.named, h.single', h.single⟩

/-- The same objects in other words. -/
theorem Matched.congr (h : Matched A B) (hA : ∀ x, A' x = A x) (hB : ∀ x, B' x = B x) :
    Matched A' B' := by
  obtain rfl : A' = A := funext hA
  obtain rfl : B' = B := funext hB
  exact h

theorem Matched.addr_eq (h : Matched A B) (ha : A a = some (n, l)) {r : Ref κ ν π} (hr : r ∈ l)
    (hb : B b = some (r.name, k)) : r.addr = b := by
  obtain ⟨k', hk', -⟩ := h.forth ha r hr
  exact h.named' hk' hb

/-- Both ends have a reference, or none has. -/
theorem Matched.mem_iff (h : Matched A B) (ha : A a = some (n, l)) (hb : B b = some (m, k)) :
    ⟨m, b, v⟩ ∈ l ↔ ⟨n, a, v⟩ ∈ k := by
  constructor
  · intro hm
    obtain ⟨k', hk', hmem⟩ := h.forth ha _ hm
    cases hb.symm.trans hk'
    exact hmem
  · intro hm
    obtain ⟨l', hl', hmem⟩ := h.back hb _ hm
    cases ha.symm.trans hl'
    exact hmem

theorem Matched.name_mem_iff (h : Matched A B) (ha : A a = some (n, l)) (hb : B b = some (m, k)) :
    m ∈ l.map (·.name) ↔ n ∈ k.map (·.name) := by
  have hside : ∀ {A B : Side κ ν π} {a b n m l k}, Matched A B → A a = some (n, l) →
      B b = some (m, k) → m ∈ l.map (·.name) → n ∈ k.map (·.name) := by
    intro A B a b n m l k h ha hb hm
    obtain ⟨r, hr, rfl⟩ := List.mem_map.mp hm
    obtain rfl := h.addr_eq ha hr hb
    exact List.mem_map.mpr ⟨_, (h.mem_iff ha hb).mp hr, rfl⟩
  exact ⟨hside h ha hb, hside h.symm hb ha⟩

/-! ## Who refers to whom -/

/-- The object with one name refers to that with the other. -/
def Joined (A : Side κ ν π) (n m : ν) (v : π) : Prop := ∃ a l b, A a = some (n, l) ∧ ⟨m, b, v⟩ ∈ l

theorem Matched.joined_symm (h : Matched A B) : Joined A n m v ↔ Joined B m n v := by
  have hside : ∀ {A B : Side κ ν π} {n m v}, Matched A B → Joined A n m v → Joined B m n v := by
    rintro A B n m v h ⟨a, l, b, ha, hmem⟩
    obtain ⟨k, hk, hmem'⟩ := h.forth ha _ hmem
    exact ⟨b, k, a, hk, hmem'⟩
  exact ⟨hside h, hside h.symm⟩

/-- The references of an object are those that join it. -/
theorem Named.mem_iff (h : Named A) (ha : A a = some (n, l)) :
    (∃ b, ⟨m, b, v⟩ ∈ l) ↔ Joined A n m v := by
  constructor
  · rintro ⟨b, hmem⟩
    exact ⟨a, l, b, ha, hmem⟩
  · rintro ⟨a', l', b, ha', hmem⟩
    obtain rfl := h ha ha'
    rw [ha] at ha'
    cases ha'
    exact ⟨b, hmem⟩

variable [DecidableEq κ]

/-- One reference more. -/
theorem joined_link (ha : A a = some (n, l)) (hl : l'.Perm (⟨m, b, v⟩ :: l))
    (hA : ∀ x, A' x = if x = a then some (n, l') else A x) {n' m' : ν} {v' : π} :
    Joined A' n' m' v' ↔ Joined A n' m' v' ∨ n' = n ∧ m' = m ∧ v' = v := by
  constructor
  · rintro ⟨x, k, b', hx, hmem⟩
    rw [hA] at hx
    split at hx
    · cases hx
      rcases List.mem_cons.mp (hl.mem_iff.mp hmem) with heq | hmem
      · cases heq
        exact .inr ⟨rfl, rfl, rfl⟩
      · exact .inl ⟨a, l, b', ha, hmem⟩
    · exact .inl ⟨x, k, b', hx, hmem⟩
  · rintro (⟨x, k, b', hx, hmem⟩ | ⟨rfl, rfl, rfl⟩)
    · by_cases hxa : x = a
      · subst hxa
        rw [ha] at hx
        cases hx
        exact ⟨x, l', b', by rw [hA, if_pos rfl], hl.mem_iff.mpr (List.mem_cons_of_mem _ hmem)⟩
      · exact ⟨x, k, b', by rw [hA, if_neg hxa, hx], hmem⟩
    · exact ⟨a, l', b, by rw [hA, if_pos rfl], hl.mem_iff.mpr List.mem_cons_self⟩

/-- An object without references joins nothing. -/
theorem joined_create (ha : A a = none) (hA : ∀ x, A' x = if x = a then some (n, []) else A x)
    {n' m' : ν} {v' : π} : Joined A' n' m' v' ↔ Joined A n' m' v' := by
  constructor
  · rintro ⟨x, k, b, hx, hmem⟩
    rw [hA] at hx
    split at hx
    · cases hx
      cases hmem
    · exact ⟨x, k, b, hx, hmem⟩
  · rintro ⟨x, k, b, hx, hmem⟩
    refine ⟨x, k, b, ?_, hmem⟩
    rw [hA, if_neg fun hxa => ?_, hx]
    rw [hxa, ha] at hx
    cases hx

/-! ## The edits -/

/-- The object keeps its name when its list changes. -/
theorem Named.set (h : Named A) (ha : A a = some (n, l))
    (hA : ∀ x, A' x = if x = a then some (n, l') else A x) : Named A' := by
  have hname : ∀ {x m k}, A' x = some (m, k) → ∃ k', A x = some (m, k') := by
    intro x m k hx
    rw [hA] at hx
    split at hx
    · rename_i hxa
      cases hx
      exact ⟨l, hxa ▸ ha⟩
    · exact ⟨k, hx⟩
  intro x y m k k' hx hy
  obtain ⟨_, hx⟩ := hname hx
  obtain ⟨_, hy⟩ := hname hy
  exact h hx hy

theorem Single.set (h : Single A) (hl : (l'.map (·.name)).Nodup)
    (hA : ∀ x, A' x = if x = a then some (n, l') else A x) : Single A' := by
  intro x m k hx
  rw [hA] at hx
  split at hx
  · cases hx
    exact hl
  · exact h hx

/-- Two lists change so that what is returned stays so. -/
theorem Returned.set (h : Returned A B) (ha : A a = some (n, l)) (hb : B b = some (m, k))
    (hA : ∀ x, A' x = if x = a then some (n, l') else A x)
    (hB : ∀ x, B' x = if x = b then some (m, k') else B x)
    (hnew : ∀ r ∈ l', r.addr = b → r.name = m ∧ ⟨n, a, r.label⟩ ∈ k')
    (hold : ∀ r ∈ l', r.addr ≠ b → r ∈ l)
    (hrest : ∀ r ∈ k, r.addr ≠ a → r ∈ k') : Returned A' B' := by
  intro x p q hx r hr
  rw [hA] at hx
  rw [hB]
  split at hx
  · rename_i hxa
    subst hxa
    cases hx
    by_cases hrb : r.addr = b
    · obtain ⟨hname, hmem⟩ := hnew r hr hrb
      exact ⟨k', by rw [if_pos hrb, hname], hmem⟩
    · rw [if_neg hrb]
      exact h ha r (hold r hr hrb)
  · rename_i hxa
    obtain ⟨k₀, hk₀, hmem⟩ := h hx r hr
    by_cases hrb : r.addr = b
    · rw [hrb, hb] at hk₀
      rw [if_pos hrb]
      cases hk₀
      exact ⟨k', rfl, hrest _ hmem hxa⟩
    · rw [if_neg hrb]
      exact ⟨k₀, hk₀, hmem⟩

/-- **Two objects refer to each other** from now on. -/
theorem Matched.link (h : Matched A B) (ha : A a = some (n, l)) (hb : B b = some (m, k))
    (hm : m ∉ l.map (·.name)) (hl : l'.Perm (⟨m, b, v⟩ :: l)) (hk : k'.Perm (⟨n, a, v⟩ :: k))
    (hA : ∀ x, A' x = if x = a then some (n, l') else A x)
    (hB : ∀ x, B' x = if x = b then some (m, k') else B x) : Matched A' B' := by
  have hn : n ∉ k.map (·.name) := fun hn => hm ((h.name_mem_iff ha hb).mpr hn)
  have hside : ∀ {A B A' B' : Side κ ν π} {a b n m l k l' k'}, Matched A B →
      A a = some (n, l) → B b = some (m, k) → m ∉ l.map (·.name) →
      l'.Perm (⟨m, b, v⟩ :: l) → k'.Perm (⟨n, a, v⟩ :: k) →
      (∀ x, A' x = if x = a then some (n, l') else A x) →
      (∀ x, B' x = if x = b then some (m, k') else B x) → Returned A' B' := by
    intro A B A' B' a b n m l k l' k' h ha hb hm hl hk hA hB
    refine h.forth.set ha hb hA hB (fun r hr hrb => ?_) (fun r hr hrb => ?_) fun r hr _ => ?_
    · rcases List.mem_cons.mp (hl.mem_iff.mp hr) with rfl | hr
      · exact ⟨rfl, hk.mem_iff.mpr List.mem_cons_self⟩
      · obtain ⟨k₀, hk₀, -⟩ := h.forth ha r hr
        rw [hrb, hb] at hk₀
        cases hk₀
        exact absurd (List.mem_map.mpr ⟨r, hr, rfl⟩) hm
    · rcases List.mem_cons.mp (hl.mem_iff.mp hr) with rfl | hr
      · exact absurd rfl hrb
      · exact hr
    · exact hk.mem_iff.mpr (List.mem_cons_of_mem _ hr)
  refine ⟨hside h ha hb hm hl hk hA hB, hside h.symm hb ha hn hk hl hB hA, h.named.set ha hA,
    h.named'.set hb hB, h.single.set ?_ hA, h.single'.set ?_ hB⟩
  · rw [(hl.map _).nodup_iff]
    exact List.nodup_cons.mpr ⟨hm, h.single ha⟩
  · rw [(hk.map _).nodup_iff]
    exact List.nodup_cons.mpr ⟨hn, h.single' hb⟩

/-- **Two objects no longer refer to each other.** -/
theorem Matched.unlink (h : Matched A B) (ha : A a = some (n, l)) (hb : B b = some (m, k))
    (hl : l'.Sublist l) (hl' : ∀ r, r ∈ l' ↔ r ∈ l ∧ r.name ≠ m)
    (hk : k'.Sublist k) (hk' : ∀ r, r ∈ k' ↔ r ∈ k ∧ r.name ≠ n)
    (hA : ∀ x, A' x = if x = a then some (n, l') else A x)
    (hB : ∀ x, B' x = if x = b then some (m, k') else B x) : Matched A' B' := by
  have hside : ∀ {A B A' B' : Side κ ν π} {a b n m l k l' k'}, Matched A B →
      A a = some (n, l) → B b = some (m, k) → (∀ r, r ∈ l' ↔ r ∈ l ∧ r.name ≠ m) →
      (∀ r, r ∈ k' ↔ r ∈ k ∧ r.name ≠ n) →
      (∀ x, A' x = if x = a then some (n, l') else A x) →
      (∀ x, B' x = if x = b then some (m, k') else B x) → Returned A' B' := by
    intro A B A' B' a b n m l k l' k' h ha hb hl' hk' hA hB
    refine h.forth.set ha hb hA hB (fun r hr hrb => ?_) (fun r hr _ => ((hl' r).mp hr).1)
      fun r hr hra => (hk' r).mpr ⟨hr, ?_⟩
    · obtain ⟨hr, hne⟩ := (hl' r).mp hr
      obtain ⟨k₀, hk₀, -⟩ := h.forth ha r hr
      rw [hrb, hb] at hk₀
      cases hk₀
      exact absurd rfl hne
    · rintro rfl
      exact hra (h.symm.addr_eq hb hr ha)
  exact ⟨hside h ha hb hl' hk' hA hB, hside h.symm hb ha hk' hl' hB hA, h.named.set ha hA,
    h.named'.set hb hB, h.single.set ((h.single ha).sublist (hl.map _)) hA,
    h.single'.set ((h.single' hb).sublist (hk.map _)) hB⟩

/-- An object without references appears under a new name. -/
theorem Matched.create (h : Matched A B) (ha : A a = none) (hn : ∀ x l, A x ≠ some (n, l))
    (hA : ∀ x, A' x = if x = a then some (n, []) else A x) : Matched A' B := by
  refine ⟨fun x p q hx r hr => ?_, fun x p q hx r hr => ?_, fun x y p q q' hx hy => ?_,
    h.named', fun x p q hx => ?_, h.single'⟩
  · rw [hA] at hx
    split at hx
    · cases hx
      cases hr
    · exact h.forth hx r hr
  · obtain ⟨k₀, hk₀, hmem⟩ := h.back hx r hr
    refine ⟨k₀, ?_, hmem⟩
    rw [hA, if_neg fun e => ?_, hk₀]
    rw [e, ha] at hk₀
    cases hk₀
  · rw [hA] at hx hy
    split at hx
    · rename_i hxa
      split at hy
      · rename_i hya
        exact hxa.trans hya.symm
      · cases hx
        exact absurd hy (hn y q')
    · split at hy
      · cases hy
        exact absurd hx (hn x q)
      · exact h.named hx hy
  · rw [hA] at hx
    split at hx
    · cases hx
      exact List.nodup_nil
    · exact h.single hx

/-- An object without references goes. -/
theorem Matched.free (h : Matched A B) (ha : A a = some (n, []))
    (hA : ∀ x, A' x = if x = a then none else A x) : Matched A' B := by
  have hkept : ∀ {x p q}, A' x = some (p, q) → A x = some (p, q) := by
    intro x p q hx
    rw [hA] at hx
    split at hx
    · cases hx
    · exact hx
  refine ⟨fun x p q hx => h.forth (hkept hx), fun x p q hx r hr => ?_,
    fun x y p q q' hx hy => h.named (hkept hx) (hkept hy), h.named',
    fun x p q hx => h.single (hkept hx), h.single'⟩
  obtain ⟨k₀, hk₀, hmem⟩ := h.back hx r hr
  refine ⟨k₀, ?_, hmem⟩
  rw [hA, if_neg fun e => ?_, hk₀]
  rw [e, ha] at hk₀
  cases hk₀
  cases hmem

end AdaptiveMqtt.Lib.Links
