import Mathlib

/-!
# Readers and writers

A reader takes a prefix of its input. It is described by an equivalence
`r s = .ok (a, rest) ↔ P a ∧ s = bytes a ++ rest`: it reads back what a writer wrote, and
whatever it accepts is what the writer writes. A run of a composed reader is taken apart by
`bind_eq_ok` and put together by `bind_of_ok`.

A writer appends to a buffer of a fixed size and stops with the error `full` if that is
too small. Writers are described by equations: `emit_append` joins two writes into one, so
that a writer which fails in no other way is `emit full bs` for the items `bs` it writes.
-/

namespace AdaptiveMqtt.Lib

variable {β ε α γ : Type}

/-! ## Readers -/

/-- Takes a prefix of the input, or fails. -/
abbrev Reader (β ε : Type) := StateT (List β) (Except ε)

namespace Reader

def item (e : ε) : Reader β ε β
  | [] => .error e
  | b :: s => .ok (b, s)

/-- The next `n` items of the input. -/
def items (e : ε) (n : Nat) : Reader β ε (List β) := fun s =>
  if n ≤ s.length then .ok (s.take n, s.drop n) else .error e

def fail (e : ε) : Reader β ε α := fun _ => .error e

/-- A run of two readers is a run of the first and one of the second on what is left. -/
theorem bind_eq_ok {r : Reader β ε α} {f : α → Reader β ε γ} {s rest : List β} {c : γ} :
    (r >>= f) s = .ok (c, rest) ↔ ∃ a s', r s = .ok (a, s') ∧ f a s' = .ok (c, rest) := by
  have h : (r >>= f) s = (r s >>= fun p => f p.1 p.2) := rfl
  rw [h]
  cases hr : r s with
  | error e => exact ⟨fun h => (nomatch h), fun ⟨_, _, h, _⟩ => (nomatch h)⟩
  | ok p =>
    refine ⟨fun h => ⟨p.1, p.2, rfl, h⟩, ?_⟩
    rintro ⟨a, s', h, h'⟩
    cases h
    exact h'

theorem bind_of_ok {r : Reader β ε α} {f : α → Reader β ε γ} {s s' : List β} {a : α}
    (h : r s = .ok (a, s')) : (r >>= f) s = f a s' := by
  have hb : (r >>= f) s = (r s >>= fun p => f p.1 p.2) := rfl
  rw [hb, h]
  rfl

theorem pure_eq_ok {s rest : List β} {a c : α} :
    (pure a : Reader β ε α) s = .ok (c, rest) ↔ a = c ∧ s = rest := by
  have h : (pure a : Reader β ε α) s = .ok (a, s) := rfl
  rw [h, Except.ok.injEq, Prod.mk.injEq]

theorem item_eq_ok {e : ε} {s rest : List β} {b : β} :
    item e s = .ok (b, rest) ↔ s = b :: rest := by
  cases s with
  | nil => simp [item]
  | cons c s => simp [item]

theorem items_eq_ok {e : ε} {n : Nat} {s rest bs : List β} :
    items e n s = .ok (bs, rest) ↔ s = bs ++ rest ∧ bs.length = n := by
  unfold items
  split
  · rename_i h
    rw [Except.ok.injEq, Prod.mk.injEq]
    constructor
    · rintro ⟨rfl, rfl⟩
      exact ⟨(List.take_append_drop n s).symm, by rw [List.length_take]; omega⟩
    · rintro ⟨rfl, rfl⟩
      simp
  · rename_i h
    refine ⟨fun h => (nomatch h), ?_⟩
    rintro ⟨rfl, rfl⟩
    simp at h

theorem fail_ne_ok {e : ε} {s rest : List β} {a : α} :
    ¬ (fail e : Reader β ε α) s = .ok (a, rest) := fun h => nomatch h

end Reader

/-! ## Writers -/

/-- A buffer of a fixed size, filled from the front. -/
@[ext] structure Sink (β : Type) where
  written : List β
  size : Nat
  fits : written.length ≤ size

/-- The buffer with more items. -/
def Sink.push (s : Sink β) (bs : List β) (h : s.written.length + bs.length ≤ s.size) : Sink β :=
  ⟨s.written ++ bs, s.size, by rw [List.length_append]; exact h⟩

/-- An empty buffer. -/
def Sink.alloc (β : Type) (size : Nat) : Sink β := ⟨[], size, Nat.zero_le size⟩

/-- Appends to a buffer, or fails. -/
abbrev Writer (β ε : Type) := StateT (Sink β) (Except ε)

namespace Writer

/-- Write the items if they fit. -/
def emit (full : ε) (bs : List β) : Writer β ε Unit := fun s =>
  if h : s.written.length + bs.length ≤ s.size then .ok ((), s.push bs h) else .error full

protected def fail (e : ε) : Writer β ε α := fun _ => .error e

variable {full : ε}

theorem emit_fits {s : Sink β} {bs : List β} (h : s.written.length + bs.length ≤ s.size) :
    emit full bs s = .ok ((), s.push bs h) := dif_pos h

theorem emit_overflows {s : Sink β} {bs : List β} (h : s.size < s.written.length + bs.length) :
    emit full bs s = .error full := dif_neg (by omega)

theorem emit_eq_ok {s : Sink β} {bs : List β} {r : Unit × Sink β} (h : emit full bs s = .ok r) :
    ∃ hfit : s.written.length + bs.length ≤ s.size, r.2 = s.push bs hfit := by
  unfold emit at h
  split at h
  · rename_i hfit
    cases h
    exact ⟨hfit, rfl⟩
  · cases h

theorem emit_nil : emit full ([] : List β) = pure () := by
  funext s
  have hfit : s.written.length + ([] : List β).length ≤ s.size := s.fits
  have hpush : s.push [] hfit = s := Sink.ext (List.append_nil _) rfl
  rw [emit_fits hfit, hpush]
  rfl

/-- **Two writes are one.** -/
theorem emit_append (bs bs' : List β) :
    (emit full bs >>= fun _ => emit full bs') = emit full (bs ++ bs') := by
  funext s
  have h : (emit full bs >>= fun _ => emit full bs') s = (emit full bs s >>= fun p =>
    emit full bs' p.2) := rfl
  rw [h]
  by_cases hfit : s.written.length + bs.length ≤ s.size
  · rw [emit_fits hfit]
    show emit full bs' (s.push bs hfit) = _
    by_cases hall : s.written.length + (bs ++ bs').length ≤ s.size
    · have hnext : (s.push bs hfit).written.length + bs'.length ≤ (s.push bs hfit).size := by
        simp only [Sink.push, List.length_append] at hall ⊢
        omega
      rw [emit_fits hall, emit_fits hnext]
      have hpush : (s.push bs hfit).push bs' hnext = s.push (bs ++ bs') hall :=
        Sink.ext (List.append_assoc _ _ _) rfl
      rw [hpush]
    · rw [emit_overflows (Nat.lt_of_not_le hall), emit_overflows]
      simp only [Sink.push, List.length_append] at hall ⊢
      omega
  · rw [emit_overflows (Nat.lt_of_not_le hfit), emit_overflows]
    · rfl
    · rw [List.length_append]
      omega

theorem forM_emit {f : α → Writer β ε Unit} {bytes : α → List β} {l : List α}
    (h : ∀ a ∈ l, f a = emit full (bytes a)) : l.forM f = emit full (l.flatMap bytes) := by
  induction l with
  | nil => exact emit_nil.symm
  | cons a l ih =>
    have hcons : (a :: l).forM f = f a >>= fun _ => l.forM f := rfl
    rw [hcons, h a List.mem_cons_self, ih fun b hb => h b (List.mem_cons_of_mem a hb),
      List.flatMap_cons]
    exact emit_append _ _

/-! ### Errors -/

/-- The writer never fails with this error. -/
def Avoids (e : ε) (w : Writer β ε α) : Prop := ∀ s, w s ≠ .error e

variable {e : ε}

theorem avoids_pure (a : α) : Avoids e (pure a : Writer β ε α) := fun _ h => nomatch h

theorem avoids_emit (h : full ≠ e) (bs : List β) : Avoids e (emit full bs) := by
  intro s hs
  unfold emit at hs
  split at hs
  · cases hs
  · exact h (Except.error.inj hs)

theorem avoids_fail {e' : ε} (h : e' ≠ e) : Avoids e (Writer.fail e' : Writer β ε α) :=
  fun _ hs => h (Except.error.inj hs)

theorem avoids_bind {γ : Type} {w : Writer β ε α} {f : α → Writer β ε γ} (hw : Avoids e w)
    (hf : ∀ a, Avoids e (f a)) : Avoids e (w >>= f) := by
  intro s hs
  have hrun : (w >>= f) s = (w s >>= fun p => f p.1 p.2) := rfl
  rw [hrun] at hs
  cases hwrite : w s with
  | error e' =>
    rw [hwrite] at hs
    cases hs
    exact hw s hwrite
  | ok p =>
    rw [hwrite] at hs
    exact hf p.1 p.2 hs

theorem avoids_forM {f : α → Writer β ε Unit} (h : ∀ a, Avoids e (f a)) (l : List α) :
    Avoids e (l.forM f) := by
  induction l with
  | nil => exact avoids_pure ()
  | cons a l ih => exact avoids_bind (h a) fun _ => ih

end Writer

end AdaptiveMqtt.Lib
