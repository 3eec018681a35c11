import Mathlib

/-!
# Reference counts

Cells with a count, and the number of references there really are. `Tallies` says that the
counts are exact: a cell is there as long as there is a reference to it. A fresh cell is there
before the first reference is taken.
-/

namespace AdaptiveMqtt.Lib

variable {κ : Type} [DecidableEq κ]

/-- Count one reference more. -/
def incr (a : κ) (count : κ → Option Int) : κ → Option Int :=
  Function.update count a ((count a).map (· + 1))

/-- Count one reference less; the cell goes with the last one. -/
def decr (a : κ) (count : κ → Option Int) : κ → Option Int :=
  Function.update count a ((count a).bind fun k => if k - 1 = 0 then none else some (k - 1))

/-- One reference to a cell. -/
def one (a s : κ) : Nat := if s = a then 1 else 0

/-- The counts are the numbers of references. -/
structure Tallies (total : κ → Nat) (count : κ → Option Int) (fresh : Option κ) : Prop where
  count : ∀ s, count s = if 0 < total s ∨ fresh = some s then some (total s : Int) else none
  unused : ∀ s, fresh = some s → total s = 0

namespace Tallies

variable {total total' : κ → Nat} {count : κ → Option Int} {fresh : Option κ} {a : κ}

@[simp] theorem one_self (a : κ) : one a a = 1 := if_pos rfl

theorem one_ne {s : κ} (h : s ≠ a) : one a s = 0 := if_neg h

theorem of_eq (h : Tallies total count fresh) (ht : ∀ s, total' s = total s) :
    Tallies total' count fresh := by
  rw [show total' = total from funext ht]
  exact h

theorem some_of_pos (h : Tallies total count fresh) {s : κ} (hs : 0 < total s) :
    count s = some (total s : Int) :=
  (h.count s).trans (if_pos (.inl hs))

/-- A cell that is not there has no references. -/
theorem none_iff (h : Tallies total count none) (s : κ) : count s = none ↔ total s = 0 := by
  rw [h.count s]
  split
  · rename_i hs
    have hpos : 0 < total s := hs.resolve_right nofun
    exact ⟨nofun, fun h0 => absurd h0 (Nat.ne_of_gt hpos)⟩
  · rename_i hs
    exact ⟨fun _ => Nat.eq_zero_of_not_pos fun hp => hs (.inl hp), fun _ => rfl⟩

/-- The cells but one are as they were. -/
theorem count_of_ne (h : Tallies total count fresh) {s : κ} (ht : total' s = total s) :
    count s = if 0 < total' s ∨ fresh = some s then some (total' s : Int) else none := by
  rw [ht]
  exact h.count s

/-- A reference is taken where there is one already. -/
theorem incr (h : Tallies total count fresh) (ha : 0 < total a)
    (ht : ∀ s, total' s = total s + one a s) : Tallies total' (incr a count) fresh := by
  refine ⟨fun s => ?_, fun s hs => ?_⟩
  · unfold Lib.incr
    by_cases hsa : s = a
    · subst hsa
      have hta : total' s = total s + 1 := (ht s).trans (by rw [one_self])
      rw [Function.update_self, h.some_of_pos ha, if_pos (.inl (by omega)), hta]
      rfl
    · rw [Function.update_of_ne hsa]
      exact h.count_of_ne ((ht s).trans (by rw [one_ne hsa, Nat.add_zero]))
  · have h0 := h.unused s hs
    have hsa : s ≠ a := by
      rintro rfl
      omega
    rw [ht, one_ne hsa, h0]

/-- The first reference to a fresh cell. -/
theorem settle (h : Tallies total count (some a)) (ht : ∀ s, total' s = total s + one a s) :
    Tallies total' (Lib.incr a count) none := by
  refine ⟨fun s => ?_, fun s hs => nomatch hs⟩
  unfold Lib.incr
  by_cases hsa : s = a
  · subst hsa
    have hta : total' s = total s + 1 := (ht s).trans (by rw [one_self])
    rw [Function.update_self, h.count s, if_pos (.inr rfl), if_pos (.inl (by omega)), hta]
    rfl
  · rw [Function.update_of_ne hsa, h.count s, ht, one_ne hsa, Nat.add_zero]
    have hne : ¬ some a = some s := fun e => hsa (Option.some.inj e).symm
    simp only [hne, or_false, reduceCtorEq]

/-- A reference is dropped. -/
theorem decr (h : Tallies total count fresh) (ht : ∀ s, total s = total' s + one a s) :
    Tallies total' (decr a count) fresh := by
  have hta : total a = total' a + 1 := (ht a).trans (by rw [one_self])
  have hfa : ¬ fresh = some a := fun hf => by
    have := h.unused a hf
    omega
  refine ⟨fun s => ?_, fun s hs => ?_⟩
  · unfold Lib.decr
    by_cases hsa : s = a
    · subst hsa
      rw [Function.update_self, h.some_of_pos (by omega), hta, Option.bind_some]
      by_cases h0 : total' s = 0
      · rw [if_pos (by omega), if_neg (by simp [h0, hfa])]
      · rw [if_neg (by omega), if_pos (.inl (by omega))]
        simp
    · rw [Function.update_of_ne hsa]
      exact h.count_of_ne ((ht s).trans (by rw [one_ne hsa, Nat.add_zero])).symm
  · have h0 := h.unused s hs
    have := ht s
    omega

theorem new (h : Tallies total count none) (ha : count a = none) :
    Tallies total (Function.update count a (some 0)) (some a) := by
  have h0 : total a = 0 := (h.none_iff a).mp ha
  refine ⟨fun s => ?_, fun s hs => ?_⟩
  · by_cases hsa : s = a
    · subst hsa
      rw [Function.update_self, if_pos (.inr rfl), h0]
      rfl
    · have hne : ¬ some a = some s := fun e => hsa (Option.some.inj e).symm
      rw [Function.update_of_ne hsa, h.count s]
      simp only [hne, or_false, reduceCtorEq]
  · cases hs
    exact h0

end Tallies

/-! ## Who refers -/

/-- What a part of the system does to its references and the counts. -/
inductive Refers (live : κ → Prop) (n n' : κ → Nat) (count count' : κ → Option Int) : Prop where
  | same (hn : ∀ s, n' s = n s) (hc : count' = count)
  | more (a : κ) (ha : live a) (hn : ∀ s, n' s = n s + one a s) (hc : count' = incr a count)
  | less (a : κ) (hn : ∀ s, n s = n' s + one a s) (hc : count' = decr a count)

/-- What the part does is right for the whole. -/
theorem Tallies.change {live : κ → Prop} {n n' total total' : κ → Nat} {count count' : κ → Option Int}
    {fresh : Option κ} (h : Tallies total count fresh) (hr : Refers live n n' count count')
    (hlive : ∀ a, live a → 0 < total a) (ht : ∀ s, total' s + n s = total s + n' s) :
    Tallies total' count' fresh := by
  cases hr with
  | same hn hc =>
    rw [hc]
    refine h.of_eq fun s => ?_
    have := ht s
    rw [hn s] at this
    omega
  | more a ha hn hc =>
    rw [hc]
    refine h.incr (hlive a ha) fun s => ?_
    have := ht s
    rw [hn s] at this
    omega
  | less a hn hc =>
    rw [hc]
    refine h.decr fun s => ?_
    have := ht s
    rw [hn s] at this
    omega

end AdaptiveMqtt.Lib
