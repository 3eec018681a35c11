import Mathlib

/-!
# Agendas

A list of things to do, kept in an order by insertion. A pass over it takes things from the
front until it meets one that is not due. If what is due stands first, the pass takes all of
it and nothing else.
-/

namespace AdaptiveMqtt.Lib.Agenda

variable {α : Type} {a : α} {l : List α} {p q : α → Bool}

theorem takeWhile_congr (h : ∀ b ∈ l, p b = q b) : l.takeWhile p = l.takeWhile q := by
  induction l with
  | nil => rfl
  | cons b l ih =>
    obtain ⟨hb, hl⟩ := List.forall_mem_cons.mp h
    rw [List.takeWhile_cons, List.takeWhile_cons, hb, ih hl]

theorem dropWhile_congr (h : ∀ b ∈ l, p b = q b) : l.dropWhile p = l.dropWhile q := by
  induction l with
  | nil => rfl
  | cons b l ih =>
    obtain ⟨hb, hl⟩ := List.forall_mem_cons.mp h
    rw [List.dropWhile_cons, List.dropWhile_cons, hb, ih hl]

def DueFirst (due : α → Bool) (l : List α) : Prop :=
  l.Pairwise fun a b => due b = true → due a = true

theorem DueFirst.takeWhile (h : DueFirst p l) : l.takeWhile p = l.filter p := by
  induction l with
  | nil => rfl
  | cons a l ih =>
    obtain ⟨hfirst, hrest⟩ := List.pairwise_cons.mp h
    by_cases ha : p a = true
    · rw [List.takeWhile_cons_of_pos ha, List.filter_cons_of_pos ha, ih hrest]
    · rw [List.takeWhile_cons_of_neg ha]
      refine (List.filter_eq_nil_iff.mpr fun b hb hd => ha ?_).symm
      rcases List.mem_cons.mp hb with rfl | hb
      · exact hd
      · exact hfirst b hb hd

theorem DueFirst.dropWhile (h : DueFirst p l) : l.dropWhile p = l.filter (fun a => !p a) := by
  induction l with
  | nil => rfl
  | cons a l ih =>
    obtain ⟨hfirst, hrest⟩ := List.pairwise_cons.mp h
    by_cases ha : p a = true
    · rw [List.dropWhile_cons_of_pos ha, ih hrest]
      exact (List.filter_cons_of_neg (by simp [ha])).symm
    · rw [List.dropWhile_cons_of_neg ha]
      refine (List.filter_eq_self.mpr fun b hb => ?_).symm
      rcases List.mem_cons.mp hb with rfl | hb
      · simp [ha]
      · have : ¬ p b = true := fun hd => ha (hfirst b hb hd)
        simp [this]

/-- What is due is a beginning of the list when the rest is not due. -/
theorem filter_of_take {n : Nat} (htake : ∀ a ∈ l.take n, p a = true)
    (hdrop : ∀ a ∈ l.drop n, ¬ p a = true) :
    l.filter p = l.take n ∧ l.filter (fun a => !p a) = l.drop n := by
  have hnone : (l.take n).filter (fun a => !p a) = [] :=
    List.filter_eq_nil_iff.mpr fun a ha => by simp [htake a ha]
  have hall : (l.drop n).filter (fun a => !p a) = l.drop n :=
    List.filter_eq_self.mpr fun a ha => by simp [hdrop a ha]
  constructor
  · conv_lhs => rw [← List.take_append_drop n l]
    rw [List.filter_append, List.filter_eq_self.mpr htake, List.filter_eq_nil_iff.mpr hdrop,
      List.append_nil]
  · conv_lhs => rw [← List.take_append_drop n l]
    rw [List.filter_append, hnone, hall, List.nil_append]

/-- In the order of the deadlines, what has one before now stands first. -/
theorem dueFirst_of_sorted {τ : Type} [LinearOrder τ] {deadline : α → τ}
    (h : l.Pairwise fun a b => deadline a ≤ deadline b) (now : τ) :
    DueFirst (fun a => deadline a < now) l :=
  h.imp fun hle hlt => decide_eq_true (hle.trans_lt (of_decide_eq_true hlt))

/-! ## Passes -/

/-- Do things from the front of a list until one is not due. -/
def pass {σ : Type} (due : σ → α → Bool) (act : α → σ → σ) : List α → σ → σ
  | [], s => s
  | a :: l, s => if due s a then pass due act l (act a s) else s

/-- If doing one thing has no say in whether another is due, what is due can be read off before
the pass. -/
theorem pass_eq {σ : Type} {due : σ → α → Bool} {act : α → σ → σ}
    (hframe : ∀ a b s, b ≠ a → due (act a s) b = due s b) (hl : l.Nodup) (s : σ) :
    pass due act l s = (l.takeWhile (due s)).foldl (fun s a => act a s) s := by
  induction l generalizing s with
  | nil => rfl
  | cons a l ih =>
    obtain ⟨ha, hrest⟩ := List.nodup_cons.mp hl
    have hsame : l.takeWhile (due (act a s)) = l.takeWhile (due s) :=
      takeWhile_congr fun b hb => hframe a b s fun h => ha (h ▸ hb)
    unfold pass
    by_cases hdue : due s a = true
    · rw [if_pos hdue, ih hrest, hsame, List.takeWhile_cons_of_pos hdue, List.foldl_cons]
    · rw [if_neg hdue, List.takeWhile_cons_of_neg hdue, List.foldl_nil]

def passLog {σ τ : Type} (due : σ → α → Bool) (act : α → σ → σ) (log : α → σ → List τ) :
    List α → σ → List τ
  | [], _ => []
  | a :: l, s => if due s a then log a s ++ passLog due act log l (act a s) else []

/-- Of what a pass writes down, `keep` picks what it writes for one thing, if the pass gets
that far. `I` holds until then. -/
theorem filter_passLog {σ τ : Type} {due : σ → α → Bool} {act : α → σ → σ} {log : α → σ → List τ}
    {keep : τ → Bool} {I : σ → Prop} {out : List τ}
    (hframe : ∀ a b s, b ≠ a → due (act a s) b = due s b)
    (hother : ∀ b s, b ≠ a → (log b s).filter keep = [])
    (hkeeps : ∀ b s, b ≠ a → I s → I (act b s))
    (hout : ∀ s, I s → (log a s).filter keep = out)
    (hafter : ∀ l s, I s → (passLog due act log l (act a s)).filter keep = [])
    (hl : l.Nodup) [DecidableEq α] {s : σ} (hs : I s) :
    (passLog due act log l s).filter keep = if a ∈ l.takeWhile (due s) then out else [] := by
  induction l generalizing s with
  | nil => rfl
  | cons b l ih =>
    obtain ⟨hb, hrest⟩ := List.nodup_cons.mp hl
    unfold passLog
    by_cases hdue : due s b = true
    · rw [if_pos hdue, List.filter_append, List.takeWhile_cons_of_pos hdue]
      by_cases hab : a = b
      · subst hab
        rw [hout s hs, hafter l s hs, List.append_nil, if_pos List.mem_cons_self]
      · have hsame : l.takeWhile (due (act b s)) = l.takeWhile (due s) :=
          takeWhile_congr fun c hc => hframe b c s fun h => hb (h ▸ hc)
        rw [hother b s (Ne.symm hab), List.nil_append, ih hrest (hkeeps b s (Ne.symm hab) hs), hsame]
        simp [hab]
    · rw [if_neg hdue, List.takeWhile_cons_of_neg hdue, if_neg List.not_mem_nil]
      rfl

/-! ## Insertion -/

/-- Put something before the first thing that is not less. -/
def insertBefore (less : α → Bool) (a : α) (l : List α) : List α :=
  l.takeWhile less ++ a :: l.dropWhile less

theorem insertBefore_congr {less less' : α → Bool} (h : ∀ b ∈ l, less b = less' b) :
    insertBefore less a l = insertBefore less' a l := by
  unfold insertBefore
  rw [takeWhile_congr h, dropWhile_congr h]

theorem perm_insertBefore (less : α → Bool) (a : α) (l : List α) :
    (insertBefore less a l).Perm (a :: l) := by
  refine List.perm_middle.trans (List.Perm.cons a ?_)
  rw [List.takeWhile_append_dropWhile]

/-- Behind all that are less. -/
theorem insertBefore_last {less : α → Bool} {a : α} (h : ∀ b ∈ l, less b = true) :
    insertBefore less a l = l ++ [a] := by
  unfold insertBefore
  rw [List.takeWhile_eq_self_iff.mpr h, List.dropWhile_eq_nil_iff.mpr h]

/-- What was there stays in its order. -/
theorem sublist_insertBefore (less : α → Bool) (a : α) (l : List α) :
    List.Sublist l (insertBefore less a l) := by
  have hsplit := List.takeWhile_append_dropWhile (p := less) (l := l)
  conv_lhs => rw [← hsplit]
  exact (List.Sublist.refl _).append (List.sublist_cons_self a _)

theorem mem_insertBefore {less : α → Bool} {b : α} :
    b ∈ insertBefore less a l ↔ b = a ∨ b ∈ l := by
  rw [(perm_insertBefore less a l).mem_iff, List.mem_cons]

theorem nodup_insertBefore {less : α → Bool} (ha : a ∉ l) (h : l.Nodup) :
    (insertBefore less a l).Nodup :=
  (perm_insertBefore less a l).nodup_iff.mpr (List.nodup_cons.mpr ⟨ha, h⟩)

theorem erase_insertBefore [DecidableEq α] {less : α → Bool} (ha : a ∉ l) :
    (insertBefore less a l).erase a = l := by
  have htake : a ∉ l.takeWhile less := fun h => ha (List.takeWhile_subset less h)
  unfold insertBefore
  rw [List.erase_append_right _ htake, List.erase_cons_head, List.takeWhile_append_dropWhile]

theorem pairwise_insertBefore {less : α → Bool} {R : α → α → Prop} (h : l.Pairwise R)
    (hbefore : ∀ b ∈ l.takeWhile less, R b a) (hafter : ∀ b ∈ l.dropWhile less, R a b) :
    (insertBefore less a l).Pairwise R := by
  have hsplit : (l.takeWhile less ++ l.dropWhile less).Pairwise R := by
    rw [List.takeWhile_append_dropWhile]
    exact h
  obtain ⟨htake, hdrop, hcross⟩ := List.pairwise_append.mp hsplit
  refine List.pairwise_append.mpr ⟨htake, List.pairwise_cons.mpr ⟨hafter, hdrop⟩, ?_⟩
  intro b hb c hc
  rcases List.mem_cons.mp hc with rfl | hc
  · exact hbefore b hb
  · exact hcross b hb c hc

/-- The first thing behind the new one is not less, and in a sorted list no other is. -/
theorem le_of_mem_dropWhile {τ : Type} [LinearOrder τ] {deadline : α → τ} {less : α → Bool}
    (h : l.Pairwise fun a b => deadline a ≤ deadline b)
    (hfirst : ∀ b ∈ l, ¬ less b = true → deadline a ≤ deadline b) :
    ∀ b ∈ l.dropWhile less, deadline a ≤ deadline b := by
  induction l with
  | nil => exact List.forall_mem_nil _
  | cons x l ih =>
    obtain ⟨hx, hrest⟩ := List.pairwise_cons.mp h
    by_cases hless : less x = true
    · rw [List.dropWhile_cons_of_pos hless]
      exact ih hrest fun b hb => hfirst b (List.mem_cons_of_mem x hb)
    · rw [List.dropWhile_cons_of_neg hless]
      have hax : deadline a ≤ deadline x := hfirst x List.mem_cons_self hless
      exact List.forall_mem_cons.mpr ⟨hax, fun b hb => hax.trans (hx b hb)⟩

/-- **Insertion keeps the order** if it compares as the order does. -/
theorem sorted_insertBefore {τ : Type} [LinearOrder τ] {deadline : α → τ} {less : α → Bool}
    (h : l.Pairwise fun a b => deadline a ≤ deadline b)
    (hless : ∀ b ∈ l, less b = true → deadline b ≤ deadline a)
    (hnot : ∀ b ∈ l, ¬ less b = true → deadline a ≤ deadline b) :
    (insertBefore less a l).Pairwise fun a b => deadline a ≤ deadline b := by
  refine pairwise_insertBefore h (fun b hb => ?_) (le_of_mem_dropWhile h hnot)
  exact hless b ((List.takeWhile_subset less) hb) (List.mem_takeWhile_imp hb)

end AdaptiveMqtt.Lib.Agenda

/-!
## Ring buffers

A list of fixed length in which the `n`-th write goes to slot `n` modulo the length. Read
from slot `n` on, it holds what was written last, in the order of writing.
-/

namespace AdaptiveMqtt.Lib.Ring

variable {α : Type}

def write (l : List α) (n : Nat) (x : α) : List α := l.set (n % l.length) x

@[simp] theorem length_write (l : List α) (n : Nat) (x : α) : (write l n x).length = l.length :=
  List.length_set

/-- A write drops the oldest element and appends the new one. -/
theorem rotate_write {l : List α} (hl : l ≠ []) (n : Nat) (x : α) :
    (write l n x).rotate (n + 1) = (l.rotate n).tail ++ [x] := by
  have hpos : 0 < l.length := List.length_pos_of_ne_nil hl
  have hlt : n % l.length < l.length := Nat.mod_lt n hpos
  generalize hk : n % l.length = k at hlt
  have hleft : (write l n x).rotate (n + 1) = (l.set k x).rotate (k + 1) := by
    unfold write
    rw [hk, ← List.rotate_mod (l.set k x) (n + 1), ← List.rotate_mod (l.set k x) (k + 1),
      List.length_set, ← hk, Nat.mod_add_mod]
  have hright : l.rotate n = l.drop k ++ l.take k := by
    rw [← List.rotate_mod, hk, List.rotate_eq_drop_append_take hlt.le]
  have htake : (l.set k x).take (k + 1) = l.take k ++ [x] := by
    have hk' : k < (l.set k x).length := by rwa [List.length_set]
    rw [List.take_succ_eq_append_getElem hk', List.take_set_of_le le_rfl, List.getElem_set_self]
  have hdrop : l.drop k ≠ [] := by simpa using hlt
  rw [hleft, hright, List.rotate_eq_drop_append_take (by rw [List.length_set]; exact hlt), htake,
    List.drop_set_of_lt (Nat.lt_succ_self k), List.tail_append_of_ne_nil hdrop, List.tail_drop,
    List.append_assoc]

/-- After the writes of `xs`, read in their order, the buffer is the end of what it was
followed by `xs`. -/
theorem rotate_write_append {l init xs : List α} (hl : l ≠ [])
    (h : l.rotate xs.length = (init ++ xs).drop xs.length) (hinit : init.length = l.length) (x : α) :
    (write l xs.length x).rotate (xs ++ [x]).length =
      (init ++ (xs ++ [x])).drop (xs ++ [x]).length := by
  have hpos : 0 < l.length := List.length_pos_of_ne_nil hl
  have hlen : xs.length + 1 ≤ (init ++ xs).length := by
    rw [List.length_append]
    omega
  rw [List.length_append, List.length_singleton, rotate_write hl, h, List.tail_drop,
    ← List.append_assoc init xs [x], @List.drop_append_of_le_length _ (init ++ xs) [x] _ hlen]

end AdaptiveMqtt.Lib.Ring
