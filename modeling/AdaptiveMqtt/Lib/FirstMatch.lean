import Mathlib

/-!
# First match wins

A list of rules is read from the front, and the first rule that says something decides. When
the rules of one kind stand before all others, and the rules of a kind never contradict one
another, the answer depends on the rules and not on their order.
-/

namespace AdaptiveMqtt.Lib.FirstMatch

variable {α β : Type}

/-- Put a rule at the front if it is of the first kind, and at the back otherwise. -/
def place (first : α → Bool) (a : α) (l : List α) : List α :=
  if first a then a :: l else l ++ [a]

/-- The rules of the first kind stand before all others. -/
def Grouped (first : α → Bool) (l : List α) : Prop :=
  l.Pairwise fun a b => first b = true → first a = true

section Place

variable {first : α → Bool} {a : α} {l : List α}

theorem perm_place : (place first a l).Perm (a :: l) := by
  unfold place
  split
  · exact List.Perm.refl _
  · exact List.perm_append_singleton a l

theorem grouped_place (h : Grouped first l) : Grouped first (place first a l) := by
  unfold place
  split
  · rename_i ha
    exact List.pairwise_cons.mpr ⟨fun _ _ _ => ha, h⟩
  · rename_i ha
    refine List.pairwise_append.mpr ⟨h, List.pairwise_singleton _ _, fun b _ c hc hfirst => ?_⟩
    rw [List.mem_singleton.mp hc] at hfirst
    exact absurd hfirst ha

theorem perm_foldl_place (rules l : List α) :
    (rules.foldl (fun l a => place first a l) l).Perm (rules ++ l) := by
  induction rules generalizing l with
  | nil => exact List.Perm.refl _
  | cons a rules ih =>
    have hplaced : (rules ++ place first a l).Perm (rules ++ a :: l) := perm_place.append_left rules
    exact ((ih _).trans hplaced).trans List.perm_middle

theorem grouped_foldl_place (rules : List α) (h : Grouped first l) :
    Grouped first (rules.foldl (fun l a => place first a l) l) := by
  induction rules generalizing l with
  | nil => exact h
  | cons a rules ih => exact ih (grouped_place h)

end Place

/-- The rules of the first kind that say something all say `x`, the others `y`. -/
structure Agree (first : α → Bool) (f : α → Option β) (x y : β) : Prop where
  onFirst : ∀ a b, first a = true → f a = some b → b = x
  onOther : ∀ a b, first a = false → f a = some b → b = y

section Decide

variable {first : α → Bool} {f : α → Option β} {x y : β} {l l' : List α}

/-- What grouped rules decide: the first kind if one of it says something, else the other. -/
theorem findSome?_grouped (h : Grouped first l) (hf : Agree first f x y) :
    l.findSome? f =
      if ∃ a ∈ l, first a = true ∧ (f a).isSome then some x
      else if ∃ a ∈ l, (f a).isSome then some y else none := by
  induction l with
  | nil => simp
  | cons a l ih =>
    obtain ⟨hhead, htail⟩ := List.pairwise_cons.mp h
    rw [List.findSome?_cons]
    cases hfa : f a with
    | none =>
      simp only [ih htail, List.mem_cons, exists_eq_or_imp, hfa, Option.isSome_none,
        Bool.false_eq_true, and_false, false_or]
    | some b =>
      cases hfirst : first a with
      | true =>
        rw [hf.onFirst a b hfirst hfa, if_pos ⟨a, List.mem_cons_self, hfirst, by rw [hfa]; rfl⟩]
      | false =>
        -- no rule of the first kind follows
        have hno : ¬ ∃ c ∈ a :: l, first c = true ∧ (f c).isSome := by
          rintro ⟨c, hc, hcfirst, -⟩
          rcases List.mem_cons.mp hc with rfl | hc
          · rw [hfirst] at hcfirst
            cases hcfirst
          · have := hhead c hc hcfirst
            rw [hfirst] at this
            cases this
        rw [hf.onOther a b hfirst hfa, if_neg hno, if_pos ⟨a, List.mem_cons_self, by rw [hfa]; rfl⟩]

/-- Grouped rules that are the same up to their order decide the same. -/
theorem findSome?_perm (hperm : l.Perm l') (h : Grouped first l) (h' : Grouped first l')
    (hf : Agree first f x y) : l.findSome? f = l'.findSome? f := by
  rw [findSome?_grouped h hf, findSome?_grouped h' hf]
  simp only [hperm.mem_iff]

end Decide

section Best

variable {τ : Type} [Preorder τ] {rank : α → τ} {p : α → Bool} {a : α} {l : List α}

/-- In a list that is in the order of ranks the first match is the best. -/
theorem find?_least (h : l.Pairwise fun a b => rank a ≤ rank b) (ha : l.find? p = some a) :
    ∀ b ∈ l, p b = true → rank a ≤ rank b := by
  induction l with
  | nil => cases ha
  | cons c l ih =>
    obtain ⟨hc, hl⟩ := List.pairwise_cons.mp h
    rw [List.find?_cons] at ha
    intro b hb hpb
    cases hpc : p c with
    | true =>
      rw [hpc] at ha
      cases ha
      rcases List.mem_cons.mp hb with rfl | hb
      · exact le_refl _
      · exact hc b hb
    | false =>
      rw [hpc] at ha
      rcases List.mem_cons.mp hb with rfl | hb
      · rw [hpc] at hpb
        cases hpb
      · exact ih hl ha b hb hpb

end Best

end AdaptiveMqtt.Lib.FirstMatch

/-!
## Loops that may fail

A loop over a list whose turns can fail does not, if what every turn needs is left by the turn
before it.
-/

namespace AdaptiveMqtt.Lib.Loop

variable {α β σ : Type} {f : σ → α → Option σ} {I : List α → σ → Prop} {l : List α} {s : σ}

/-- **The rule of the loop**: the invariant speaks about what is still to be done. -/
theorem foldlM_turns (hturn : ∀ a l s, I (a :: l) s → ∃ s', f s a = some s' ∧ I l s')
    (h : I l s) : ∃ s', l.foldlM f s = some s' ∧ I [] s' := by
  induction l generalizing s with
  | nil => exact ⟨s, rfl, h⟩
  | cons a l ih =>
    obtain ⟨s₁, hs₁, h₁⟩ := hturn a l s h
    obtain ⟨s₂, hs₂, h₂⟩ := ih h₁
    refine ⟨s₂, ?_, h₂⟩
    rw [List.foldlM_cons, hs₁]
    exact hs₂

/-- A loop that has an invariant of its own. -/
theorem foldlM_keeps {J : σ → Prop} (hturn : ∀ a ∈ l, ∀ s, J s → ∃ s', f s a = some s' ∧ J s')
    (h : J s) : ∃ s', l.foldlM f s = some s' ∧ J s' := by
  obtain ⟨s', hs', -, hJ⟩ := foldlM_turns (I := fun k s => (∀ a ∈ k, a ∈ l) ∧ J s)
    (fun a k s hI => by
      obtain ⟨s', hs', hJ⟩ := hturn a (hI.1 a List.mem_cons_self) s hI.2
      exact ⟨s', hs', fun b hb => hI.1 b (List.mem_cons_of_mem a hb), hJ⟩)
    ⟨fun a ha => ha, h⟩
  exact ⟨s', hs', hJ⟩

/-- Something is read for every element. -/
theorem mapM_eq {g : α → Option β} {h : α → β} (hg : ∀ a ∈ l, g a = some (h a)) :
    l.mapM g = some (l.map h) := by
  induction l with
  | nil => rfl
  | cons a l ih =>
    obtain ⟨ha, hl⟩ := List.forall_mem_cons.mp hg
    rw [List.mapM_cons, ha, ih hl]
    rfl

end AdaptiveMqtt.Lib.Loop
