import AdaptiveMqtt.Packet.Datatypes

/-!
# UTF-8

`mosquitto_validate_utf8` of `lib/utf8_mosq.c`. `mosquittoValidateUtf8At` reads a buffer by
index, as the source does, and a read past the end of the buffer has no value; on a string
with its NUL it never comes to that and agrees with `mosquittoValidateUtf8`.

A turn of the loop takes one character off the string (`step_iff`), so that the accepted
strings are those made of permitted characters.
-/

namespace AdaptiveMqtt.Packet

/-! ## By index -/

/-- The loop over `j`: the index and the code point after `n` continuation bytes, or `none` for a
byte that is none. -/
def continuationLoop (ustr : Bytes) : Nat → Nat → Nat → Option (Option (Nat × Nat))
  | 0, i, codepoint => some (some (i, codepoint))
  | n + 1, i, codepoint =>
    match ustr[i + 1]? with
    | none => none
    | some b =>
      if b &&& 0xC0 ≠ 0x80 then some none
      else continuationLoop ustr n (i + 1) (codepoint <<< 6 ||| (b &&& 0x3F).toNat)

/-- The loop over `i`. It ends after `len` turns at most. -/
def validateLoop (ustr : Bytes) (len : Int) : Nat → Nat → Option Rc
  | 0, _ => none
  | fuel + 1, i =>
    if (i : Int) < len then
      match ustr[i]? with
      | none => none
      | some b =>
        match codeStart b with
        | none => some Rc.malformedUtf8
        | some (codelen, codepoint) =>
          if (i : Int) = len - codelen + 1 then some Rc.malformedUtf8
          else
            match continuationLoop ustr (codelen - 1) i codepoint with
            | none => none
            | some none => some Rc.malformedUtf8
            | some (some (i, codepoint)) =>
              if codepointOk codelen codepoint then validateLoop ustr len fuel (i + 1)
              else some Rc.malformedUtf8
    else some Rc.success

/-- `mosquitto_validate_utf8` on a buffer: `none` if it reads past its end. -/
def mosquittoValidateUtf8At (ustr : Bytes) (len : Int) : Option Rc :=
  if len < 0 ∨ len > 65536 then some Rc.inval else validateLoop ustr len (len.toNat + 1) 0

/-! ## Bytes -/

def startOf (n : Nat) : Option (Nat × Nat) :=
  if n = 0 then none
  else if n < 0x80 then some (1, n)
  else if n < 0xC2 then none
  else if n < 0xE0 then some (2, n - 0xC0)
  else if n < 0xF0 then some (3, n - 0xE0)
  else if n < 0xF5 then some (4, n - 0xF0)
  else none

theorem codeStart_ofNat : ∀ n : Fin 256, codeStart (UInt8.ofNat n) = startOf n := by
  decide +kernel

theorem codeStart_eq (b : UInt8) : codeStart b = startOf b.toNat := by
  have h := codeStart_ofNat ⟨b.toNat, b.toNat_lt⟩
  rwa [UInt8.ofNat_toNat] at h

theorem continuation_ofNat : ∀ n : Fin 256,
    (UInt8.ofNat n &&& 0xC0 = 0x80 ↔ 0x80 ≤ n.val ∧ n.val < 0xC0) ∧
      (UInt8.ofNat n &&& 0x3F).toNat = n.val % 64 := by
  decide +kernel

theorem continuation_iff (b : UInt8) : b &&& 0xC0 = 0x80 ↔ 0x80 ≤ b.toNat ∧ b.toNat < 0xC0 := by
  have h := (continuation_ofNat ⟨b.toNat, b.toNat_lt⟩).1
  rwa [UInt8.ofNat_toNat] at h

theorem low_six_bits (b : UInt8) : (b &&& 0x3F).toNat = b.toNat % 64 := by
  have h := (continuation_ofNat ⟨b.toNat, b.toNat_lt⟩).2
  rwa [UInt8.ofNat_toNat] at h

section CodeRest

variable {n codepoint v : Nat} {s : Bytes}

@[simp] theorem codeRest_zero : codeRest 0 codepoint s = some codepoint := rfl

theorem codeRest_nil : codeRest (n + 1) codepoint [] = none := rfl

theorem codeRest_cons (b : UInt8) : codeRest (n + 1) codepoint (b :: s) =
    if 0x80 ≤ b.toNat ∧ b.toNat < 0xC0 then codeRest n (codepoint * 64 + b.toNat % 64) s
    else none := by
  have hrest : codeRest (n + 1) codepoint (b :: s) = if b &&& 0xC0 ≠ 0x80 then none
      else codeRest n (codepoint * 64 + (b &&& 0x3F).toNat) s := rfl
  rw [hrest, low_six_bits]
  by_cases hb : b &&& 0xC0 = 0x80
  · rw [if_neg (not_not.mpr hb), if_pos ((continuation_iff b).mp hb)]
  · rw [if_pos hb, if_neg fun h => hb ((continuation_iff b).mpr h)]

/-- What is left of a sequence begins with a continuation byte. -/
theorem codeRest_succ (h : codeRest (n + 1) codepoint s = some v) :
    ∃ b t, s = b :: t ∧ (0x80 ≤ b.toNat ∧ b.toNat < 0xC0) ∧
      codeRest n (codepoint * 64 + b.toNat % 64) t = some v := by
  cases s with
  | nil =>
    rw [codeRest_nil] at h
    cases h
  | cons b t =>
    rw [codeRest_cons] at h
    split at h
    · exact ⟨b, t, rfl, ‹_›, h⟩
    · cases h

end CodeRest

/-! ## A character -/

/-- A character that MQTT permits in a string: not U+0000 or another control character, and no
non-character. A `Char` is no surrogate and at most U+10FFFF. -/
structure Permitted (c : Char) : Prop where
  null : c.toNat ≠ 0
  control : ¬ (1 ≤ c.toNat ∧ c.toNat ≤ 0x1F) ∧ ¬ (0x7F ≤ c.toNat ∧ c.toNat ≤ 0x9F)
  arabic : ¬ (0xFDD0 ≤ c.toNat ∧ c.toNat ≤ 0xFDEF)
  plane : c.toNat % 0x10000 ≠ 0xFFFE ∧ c.toNat % 0x10000 ≠ 0xFFFF

theorem codepointOk_iff {k n : Nat} : codepointOk k n = true ↔
    ¬ (0xD800 ≤ n ∧ n ≤ 0xDFFF) ∧ ¬ (k = 3 ∧ n < 0x800) ∧
      ¬ (k = 4 ∧ (n < 0x10000 ∨ 0x10FFFF < n)) ∧ ¬ (0xFDD0 ≤ n ∧ n ≤ 0xFDEF) ∧
      ¬ (n % 0x10000 = 0xFFFE ∨ n % 0x10000 = 0xFFFF) ∧
      ¬ (n ≤ 0x1F ∨ (0x7F ≤ n ∧ n ≤ 0x9F)) := by
  simp only [codepointOk, Bool.and_eq_true, Bool.not_eq_true', Bool.and_eq_false_iff,
    Bool.or_eq_false_iff, decide_eq_false_iff_not]
  omega

theorem permitted_iff {c : Char} : Permitted c ↔
    ¬ (c.toNat ≤ 0x1F ∨ (0x7F ≤ c.toNat ∧ c.toNat ≤ 0x9F)) ∧
      ¬ (0xFDD0 ≤ c.toNat ∧ c.toNat ≤ 0xFDEF) ∧
      ¬ (c.toNat % 0x10000 = 0xFFFE ∨ c.toNat % 0x10000 = 0xFFFF) := by
  constructor
  · rintro ⟨hnull, hcontrol, harabic, hplane⟩
    omega
  · rintro ⟨hcontrol, harabic, hplane⟩
    constructor <;> omega

/-- The character of a code point that passed the checks. -/
theorem exists_char {k n : Nat} (h : codepointOk k n = true) (hlt : n < 0x110000) :
    ∃ c : Char, c.toNat = n ∧ Permitted c := by
  obtain ⟨hsur, -, -, harabic, hplane, hcontrol⟩ := codepointOk_iff.mp h
  have hvalid : n.isValidChar := by
    unfold Nat.isValidChar
    omega
  have hto : (Char.ofNatAux n hvalid).toNat = n := rfl
  exact ⟨_, hto, permitted_iff.mpr (by rw [hto]; exact ⟨hcontrol, harabic, hplane⟩)⟩

theorem toNat_valid (c : Char) : c.toNat < 0xD800 ∨ (0xDFFF < c.toNat ∧ c.toNat < 0x110000) :=
  c.valid

section Encode

variable {c : Char}

theorem encode_one (h : c.toNat < 0x80) : String.utf8EncodeChar c = [UInt8.ofNat c.toNat] :=
  if_pos (Nat.le_of_lt_succ h)

theorem encode_two (h : 0x80 ≤ c.toNat) (h' : c.toNat < 0x800) : String.utf8EncodeChar c =
    [UInt8.ofNat (c.toNat / 64 % 0x20 + 0xC0), UInt8.ofNat (c.toNat % 0x40 + 0x80)] := by
  unfold String.utf8EncodeChar
  have hone : ¬ c.val.toNat ≤ 0x7F := Nat.not_le.mpr h
  have htwo : c.val.toNat ≤ 0x7FF := Nat.le_of_lt_succ h'
  rw [if_neg hone, if_pos htwo]
  rfl

theorem encode_three (h : 0x800 ≤ c.toNat) (h' : c.toNat < 0x10000) : String.utf8EncodeChar c =
    [UInt8.ofNat (c.toNat / 4096 % 0x10 + 0xE0), UInt8.ofNat (c.toNat / 64 % 0x40 + 0x80),
      UInt8.ofNat (c.toNat % 0x40 + 0x80)] := by
  unfold String.utf8EncodeChar
  have hone : ¬ c.val.toNat ≤ 0x7F := Nat.not_le.mpr (Nat.lt_of_lt_of_le (by decide) h)
  have htwo : ¬ c.val.toNat ≤ 0x7FF := Nat.not_le.mpr h
  have hthree : c.val.toNat ≤ 0xFFFF := Nat.le_of_lt_succ h'
  rw [if_neg hone, if_neg htwo, if_pos hthree]
  rfl

theorem encode_four (h : 0x10000 ≤ c.toNat) : String.utf8EncodeChar c =
    [UInt8.ofNat (c.toNat / 262144 % 0x08 + 0xF0), UInt8.ofNat (c.toNat / 4096 % 0x40 + 0x80),
      UInt8.ofNat (c.toNat / 64 % 0x40 + 0x80), UInt8.ofNat (c.toNat % 0x40 + 0x80)] := by
  unfold String.utf8EncodeChar
  have hone : ¬ c.val.toNat ≤ 0x7F := Nat.not_le.mpr (Nat.lt_of_lt_of_le (by decide) h)
  have htwo : ¬ c.val.toNat ≤ 0x7FF := Nat.not_le.mpr (Nat.lt_of_lt_of_le (by decide) h)
  have hthree : ¬ c.val.toNat ≤ 0xFFFF := Nat.not_le.mpr h
  rw [if_neg hone, if_neg htwo, if_neg hthree]
  rfl

theorem ofNat_eq_byte {n : Nat} {b : UInt8} (h : n = b.toNat) : UInt8.ofNat n = b := by
  rw [h, UInt8.ofNat_toNat]

/-- A sequence that passes all tests is a permitted character. -/
theorem char_of_step {b : UInt8} {s : Bytes} {k codepoint v : Nat}
    (hstart : codeStart b = some (k, codepoint)) (hrest : codeRest (k - 1) codepoint s = some v)
    (hok : codepointOk k v = true) :
    ∃ c rest, Permitted c ∧ b :: s = String.utf8EncodeChar c ++ rest ∧
      (String.utf8EncodeChar c).length = k := by
  rw [codeStart_eq] at hstart
  have htests := codepointOk_iff.mp hok
  unfold startOf at hstart
  split_ifs at hstart <;> cases hstart
  · -- one byte
    cases hrest
    obtain ⟨c, hto, hperm⟩ := exists_char hok (by omega)
    refine ⟨c, s, hperm, ?_, ?_⟩ <;> rw [encode_one (by omega)]
    · rw [ofNat_eq_byte hto]
      rfl
    · rfl
  · -- two bytes
    obtain ⟨b₁, t₁, rfl, h₁, hrest⟩ := codeRest_succ hrest
    cases hrest
    obtain ⟨c, hto, hperm⟩ := exists_char hok (by omega)
    refine ⟨c, t₁, hperm, ?_, ?_⟩ <;> rw [encode_two (by omega) (by omega)]
    · rw [@ofNat_eq_byte _ b (by omega), @ofNat_eq_byte _ b₁ (by omega)]
      rfl
    · rfl
  · -- three bytes
    obtain ⟨b₁, t₁, rfl, h₁, hrest⟩ := codeRest_succ hrest
    obtain ⟨b₂, t₂, rfl, h₂, hrest⟩ := codeRest_succ hrest
    cases hrest
    obtain ⟨c, hto, hperm⟩ := exists_char hok (by omega)
    refine ⟨c, t₂, hperm, ?_, ?_⟩ <;> rw [encode_three (by omega) (by omega)]
    · rw [@ofNat_eq_byte _ b (by omega), @ofNat_eq_byte _ b₁ (by omega),
        @ofNat_eq_byte _ b₂ (by omega)]
      rfl
    · rfl
  · -- four bytes
    obtain ⟨b₁, t₁, rfl, h₁, hrest⟩ := codeRest_succ hrest
    obtain ⟨b₂, t₂, rfl, h₂, hrest⟩ := codeRest_succ hrest
    obtain ⟨b₃, t₃, rfl, h₃, hrest⟩ := codeRest_succ hrest
    cases hrest
    obtain ⟨c, hto, hperm⟩ := exists_char hok (by omega)
    refine ⟨c, t₃, hperm, ?_, ?_⟩ <;> rw [encode_four (by omega)]
    · rw [@ofNat_eq_byte _ b (by omega), @ofNat_eq_byte _ b₁ (by omega),
        @ofNat_eq_byte _ b₂ (by omega), @ofNat_eq_byte _ b₃ (by omega)]
      rfl
    · rfl

/-- The tests that a permitted character passes. -/
theorem step_of_char (hc : Permitted c) (rest : Bytes) :
    ∃ b s k codepoint, String.utf8EncodeChar c ++ rest = b :: s ∧
      codeStart b = some (k, codepoint) ∧ k = (String.utf8EncodeChar c).length ∧
      codeRest (k - 1) codepoint s = some c.toNat ∧ codepointOk k c.toNat = true := by
  obtain ⟨hcontrol, harabic, hplane⟩ := permitted_iff.mp hc
  have hvalid := toNat_valid c
  have hbyte : ∀ n < 256, (UInt8.ofNat n).toNat = n := fun n hn => by
    rw [UInt8.toNat_ofNat', Nat.mod_eq_of_lt hn]
  by_cases h1 : c.toNat < 0x80
  · rw [encode_one h1]
    refine ⟨_, rest, 1, c.toNat, rfl, ?_, rfl, rfl, codepointOk_iff.mpr (by omega)⟩
    rw [codeStart_eq, hbyte _ (by omega), startOf, if_neg (by omega), if_pos h1]
  by_cases h2 : c.toNat < 0x800
  · rw [encode_two (by omega) h2, List.cons_append, List.singleton_append]
    refine ⟨_, _, 2, c.toNat / 64, rfl, ?_, rfl, ?_, codepointOk_iff.mpr (by omega)⟩
    · rw [codeStart_eq, hbyte _ (by omega), startOf, if_neg (by omega), if_neg (by omega),
        if_neg (by omega), if_pos (by omega)]
      exact congrArg (fun x => some (2, x)) (by omega)
    · rw [codeRest_cons, hbyte _ (by omega), if_pos (by omega), codeRest_zero]
      exact congrArg some (by omega)
  by_cases h3 : c.toNat < 0x10000
  · rw [encode_three (by omega) h3, List.cons_append, List.cons_append, List.singleton_append]
    refine ⟨_, _, 3, c.toNat / 4096, rfl, ?_, rfl, ?_, codepointOk_iff.mpr (by omega)⟩
    · rw [codeStart_eq, hbyte _ (by omega), startOf, if_neg (by omega), if_neg (by omega),
        if_neg (by omega), if_neg (by omega), if_pos (by omega)]
      exact congrArg (fun x => some (3, x)) (by omega)
    · rw [codeRest_cons, codeRest_cons,
        hbyte _ (by omega), hbyte _ (by omega), if_pos (by omega), if_pos (by omega), codeRest_zero]
      exact congrArg some (by omega)
  · rw [encode_four (by omega), List.cons_append, List.cons_append, List.cons_append,
      List.singleton_append]
    refine ⟨_, _, 4, c.toNat / 262144, rfl, ?_, rfl, ?_, codepointOk_iff.mpr (by omega)⟩
    · rw [codeStart_eq, hbyte _ (by omega), startOf, if_neg (by omega), if_neg (by omega),
        if_neg (by omega), if_neg (by omega), if_neg (by omega), if_pos (by omega)]
      exact congrArg (fun x => some (4, x)) (by omega)
    · rw [codeRest_cons, codeRest_cons,
        codeRest_cons, hbyte _ (by omega), hbyte _ (by omega), hbyte _ (by omega),
        if_pos (by omega), if_pos (by omega), if_pos (by omega), codeRest_zero]
      exact congrArg some (by omega)

end Encode

/-! ## The string -/

/-- A string that is the encoding of permitted characters. -/
def WellFormed (str : Bytes) : Prop :=
  ∃ cs : List Char, str = cs.flatMap String.utf8EncodeChar ∧ ∀ c ∈ cs, Permitted c

theorem wellFormed_nil : WellFormed [] := ⟨[], rfl, fun _ h => (nomatch h)⟩

theorem WellFormed.cons {c : Char} {rest : Bytes} (hc : Permitted c) (h : WellFormed rest) :
    WellFormed (String.utf8EncodeChar c ++ rest) := by
  obtain ⟨cs, rfl, hcs⟩ := h
  exact ⟨c :: cs, rfl, List.forall_mem_cons.mpr ⟨hc, hcs⟩⟩

theorem WellFormed.uncons {str : Bytes} (h : WellFormed str) (hne : str ≠ []) :
    ∃ c rest, Permitted c ∧ WellFormed rest ∧ str = String.utf8EncodeChar c ++ rest := by
  obtain ⟨cs, rfl, hcs⟩ := h
  cases cs with
  | nil => exact absurd rfl hne
  | cons c cs =>
    obtain ⟨hc, hcs⟩ := List.forall_mem_cons.mp hcs
    exact ⟨c, cs.flatMap String.utf8EncodeChar, hc, ⟨cs, rfl, hcs⟩, rfl⟩

/-- A turn of the loop takes the first character off. -/
theorem utf8Loop_step {fuel : Nat} {str : Bytes} (hne : str ≠ []) :
    utf8Loop (fuel + 1) str.length str = Rc.success ↔
      ∃ c rest, Permitted c ∧ utf8Loop fuel rest.length rest = Rc.success ∧
        str = String.utf8EncodeChar c ++ rest := by
  obtain ⟨b, s, rfl⟩ := List.exists_cons_of_ne_nil hne
  rw [List.length_cons, utf8Loop, List.headD_cons, List.tail_cons]
  constructor
  · intro h
    split at h
    · cases h
    · rename_i k codepoint hstart
      split at h
      · cases h
      · split at h
        · cases h
        · rename_i v hrest
          split at h
          · rename_i hok
            obtain ⟨c, rest, hc, hstr, hlen⟩ := char_of_step hstart hrest hok
            have hsum := congrArg List.length hstr
            rw [List.length_append, List.length_cons, hlen] at hsum
            rw [hstr, ← hlen, List.drop_left, hlen, hsum, Nat.add_sub_cancel_left] at h
            exact ⟨c, rest, hc, h, hstr⟩
          · cases h
  · rintro ⟨c, rest, hc, h, hstr⟩
    obtain ⟨b', s', k, codepoint, hcons, hstart, hlen, hrest, hok⟩ := step_of_char hc rest
    rw [← hstr] at hcons
    cases hcons
    have hsum := congrArg List.length hstr
    have hdrop : (b :: s).drop k = rest := by rw [hstr, hlen, List.drop_left]
    rw [List.length_append, List.length_cons, ← hlen] at hsum
    rw [hstart]
    simp only [hrest, hok, if_true, hdrop]
    rw [if_neg (by omega), hsum, Nat.add_sub_cancel_left]
    exact h

theorem utf8Loop_iff {fuel : Nat} {str : Bytes} (hfuel : str.length ≤ fuel) :
    utf8Loop fuel str.length str = Rc.success ↔ WellFormed str := by
  induction fuel generalizing str with
  | zero =>
    obtain rfl := List.length_eq_zero_iff.mp (Nat.le_zero.mp hfuel)
    exact ⟨fun _ => wellFormed_nil, fun _ => rfl⟩
  | succ fuel ih =>
    by_cases hne : str = []
    · subst hne
      exact ⟨fun _ => wellFormed_nil, fun _ => rfl⟩
    have hshort : ∀ {c : Char} {rest : Bytes}, str = String.utf8EncodeChar c ++ rest →
        rest.length ≤ fuel := by
      intro c rest hstr
      have hsum := congrArg List.length hstr
      have hpos := c.utf8Size_pos
      rw [List.length_append, String.length_utf8EncodeChar] at hsum
      omega
    rw [utf8Loop_step hne]
    constructor
    · rintro ⟨c, rest, hc, h, hstr⟩
      rw [hstr]
      exact .cons hc ((ih (hshort hstr)).mp h)
    · intro h
      obtain ⟨c, rest, hc, hrest, hstr⟩ := h.uncons hne
      exact ⟨c, rest, hc, (ih (hshort hstr)).mpr hrest, hstr⟩

theorem mosquittoValidateUtf8_iff {str : Bytes} (h : str.length ≤ 65536) :
    mosquittoValidateUtf8 str str.length = Rc.success ↔ WellFormed str := by
  unfold mosquittoValidateUtf8
  rw [if_neg (by omega), Int.toNat_natCast]
  exact utf8Loop_iff (Nat.le_refl _)

/-! ## Reads -/

section Reads

variable {ustr s : Bytes} {i : Nat}

/-- The byte at an index, and what follows it. -/
theorem getElem?_of_drop {b : UInt8} (h : ustr.drop i = b :: s) :
    ustr[i]? = some b ∧ ustr.drop (i + 1) = s := by
  refine ⟨?_, ?_⟩
  · rw [← List.head?_drop, h]
    rfl
  · rw [← List.drop_drop, h]
    rfl

/-- The continuation bytes are read up to the NUL at most. -/
theorem continuationLoop_eq {n codepoint : Nat} (h : ustr.drop (i + 1) = s ++ [0]) :
    continuationLoop ustr n i codepoint =
      some ((codeRest n codepoint s).map fun v => (i + n, v)) := by
  induction n generalizing i s codepoint with
  | zero => rfl
  | succ n ih =>
    cases s with
    | nil =>
      have hread := (getElem?_of_drop h).1
      rw [continuationLoop, hread, codeRest_nil]
      rfl
    | cons b s =>
      obtain ⟨hread, hdrop⟩ := getElem?_of_drop h
      have hlow : (b &&& 0x3F).toNat < 2 ^ 6 := by
        rw [low_six_bits]
        exact Nat.mod_lt _ (by decide)
      have hcode : codepoint <<< 6 ||| (b &&& 0x3F).toNat = codepoint * 64 + b.toNat % 64 := by
        rw [← Nat.shiftLeft_add_eq_or_of_lt hlow, Nat.shiftLeft_eq, low_six_bits]
      rw [continuationLoop, hread, codeRest_cons]
      simp only
      by_cases hb : b &&& 0xC0 = 0x80
      · rw [if_neg (not_not.mpr hb), if_pos ((continuation_iff b).mp hb), hcode, ih hdrop,
          Nat.add_assoc, Nat.add_comm 1 n]
      · rw [if_pos hb, if_neg fun h => hb ((continuation_iff b).mpr h)]
        rfl

/-- A sequence that is complete ends within the string. -/
theorem codeRest_length {n codepoint v : Nat} (h : codeRest n codepoint s = some v) :
    n ≤ s.length := by
  induction n generalizing s codepoint with
  | zero => exact Nat.zero_le _
  | succ n ih =>
    obtain ⟨b, t, rfl, -, h⟩ := codeRest_succ h
    exact Nat.succ_le_succ (ih h)

theorem validateLoop_eq {len : Int} {fuel : Nat} (h : ustr.drop i = s ++ [0])
    (hlen : (i : Int) + s.length = len) (hfuel : s.length ≤ fuel) :
    validateLoop ustr len (fuel + 1) i = some (utf8Loop fuel s.length s) := by
  induction fuel generalizing i s with
  | zero =>
    obtain rfl := List.length_eq_zero_iff.mp (Nat.le_zero.mp hfuel)
    rw [validateLoop, if_neg (by rw [List.length_nil] at hlen; omega)]
    rfl
  | succ fuel ih =>
    cases s with
    | nil =>
      rw [validateLoop, if_neg (by rw [List.length_nil] at hlen; omega)]
      rfl
    | cons b s =>
      rw [List.cons_append] at h
      obtain ⟨hread, hdrop⟩ := getElem?_of_drop h
      rw [List.length_cons] at hlen hfuel
      rw [validateLoop, if_pos (by omega), hread, List.length_cons, utf8Loop, List.headD_cons,
        List.tail_cons]
      simp only
      cases hstart : codeStart b with
      | none => rfl
      | some r =>
        obtain ⟨k, codepoint⟩ := r
        obtain ⟨hpos, hfour⟩ : 0 < k ∧ k ≤ 4 := by
          rw [codeStart_eq, startOf] at hstart
          split_ifs at hstart <;> cases hstart <;> omega
        simp only
        by_cases hshort : s.length + 1 = k - 1
        · rw [if_pos (by omega), if_pos hshort]
        rw [if_neg (by omega), if_neg hshort, continuationLoop_eq hdrop]
        cases hrest : codeRest (k - 1) codepoint s with
        | none => rfl
        | some v =>
          have hin := codeRest_length hrest
          simp only [Option.map_some]
          split
          · have hnext : ustr.drop (i + (k - 1) + 1) = s.drop (k - 1) ++ [0] := by
              rw [show i + (k - 1) + 1 = i + 1 + (k - 1) by omega, ← List.drop_drop, hdrop,
                List.drop_append_of_le_length hin]
            have hleft : (s.drop (k - 1)).length = s.length + 1 - k := by
              rw [List.length_drop]
              omega
            rw [ih hnext (by omega) (by omega), hleft]
            obtain ⟨k, rfl⟩ : ∃ j, k = j + 1 := ⟨k - 1, by omega⟩
            rfl
          · rfl

end Reads

/-- On a string and its NUL, all reads are within the buffer. -/
theorem mosquittoValidateUtf8At_eq (str : Bytes) :
    mosquittoValidateUtf8At (str ++ [0]) str.length =
      some (mosquittoValidateUtf8 str str.length) := by
  unfold mosquittoValidateUtf8At mosquittoValidateUtf8
  split
  · rfl
  · rw [Int.toNat_natCast]
    exact validateLoop_eq rfl (by omega) (Nat.le_refl _)

/-- **UTF-8 validation is exact**: on a string of `len` bytes and its NUL, no read is past index
`len`, and the string is accepted exactly if it is the encoding of permitted characters. -/
theorem utf8_validation_exact {str : Bytes} (h : str.length ≤ 65535) :
    ∃ rc, mosquittoValidateUtf8At (str ++ [0]) str.length = some rc ∧
      (rc = Rc.success ↔ ∃ cs : List Char,
        str = cs.flatMap String.utf8EncodeChar ∧ ∀ c ∈ cs, Permitted c) :=
  ⟨_, mosquittoValidateUtf8At_eq str, mosquittoValidateUtf8_iff (by omega)⟩

/-- The euro sign, cut off after its second byte, at the end of a string. -/
theorem utf8_validation_truncated :
    ∃ rc, mosquittoValidateUtf8At [97, 0xE2, 0x82, 0] 3 = some rc ∧
      (rc = Rc.success ↔ ∃ cs : List Char,
        [97, 0xE2, 0x82] = cs.flatMap String.utf8EncodeChar ∧ ∀ c ∈ cs, Permitted c) :=
  @utf8_validation_exact [97, 0xE2, 0x82] (by decide)

example : mosquittoValidateUtf8At [97, 0xE2, 0x82, 0xAC, 0] 4 = some Rc.success := by decide

end AdaptiveMqtt.Packet
