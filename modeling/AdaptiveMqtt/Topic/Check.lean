import AdaptiveMqtt.Topic.Match
import AdaptiveMqtt.Lib.Word

/-!
# The topic checks

`mosquitto_pub_topic_check`, `mosquitto_sub_topic_check` and the variants that take a length, of
`lib/util_topic.c` in the broker build. The first two look at the length only after they have
counted it in an `int`; the variants take a `size_t` and look at it first.

A filter is a list of levels, each of them `+`, a `#` at the end, or free of wildcards. A scan
that looks one character back and one ahead accepts these filters and no others.
-/

namespace AdaptiveMqtt.Topic

open Lib

/-! ## Counting in an `int` -/

def countHier (b : UInt8) (hier : Int) : Except CInt.Fault Int :=
  if b = slash then CInt.add hier 1 else pure hier

/-- The loop of both checks with its counters, `len` and `hier_count`; `bad c b str` is the test
of a byte with the character before it and the string after it. -/
def topicScan (bad : Option UInt8 → UInt8 → Bytes → Bool) :
    Option UInt8 → Int → Int → Bytes → Except CInt.Fault (Option (Int × Int))
  | _, len, hier, [] => pure (some (len, hier))
  | c, len, hier, b :: str =>
    if bad c b str then pure none
    else do
      let hier ← countHier b hier
      let len ← CInt.add len 1
      topicScan bad (some b) len hier str

/-- The test of `mosquitto_pub_topic_check`. -/
def anyWildcard (_ : Option UInt8) (b : UInt8) (_ : Bytes) : Bool := isWildcard b

/-- The checks at the end of both. -/
def scanResult : Option (Int × Int) → Rc
  | none => Rc.inval
  | some (len, hier) =>
    if len > 65535 then Rc.inval
    else if hier > topicHierarchyLimit then Rc.inval
    else Rc.success

def mosquittoPubTopicCheckInt (str : Bytes) : Except CInt.Fault Rc :=
  scanResult <$> topicScan anyWildcard none 0 0 str

def mosquittoSubTopicCheckInt (str : Bytes) : Except CInt.Fault Rc :=
  scanResult <$> topicScan misplaced none 0 0 str

/-! ## With a length -/

/-- The loop of `mosquitto_pub_topic_check2` with the bytes left: `hier_count` at the end. -/
def pubTopicLoop2 (str : Bytes) (len : Nat) : Nat → Nat → Option Nat
  | 0, hier => some hier
  | left + 1, hier =>
    let b := str.getD (len - (left + 1)) 0
    if isWildcard b then none
    else pubTopicLoop2 str len left (if b = slash then hier + 1 else hier)

def mosquittoPubTopicCheck2 (str : Bytes) (len : Nat) : Rc :=
  if len > 65535 then Rc.inval
  else
    match pubTopicLoop2 str len len 0 with
    | none => Rc.inval
    | some hier => if hier > topicHierarchyLimit then Rc.inval else Rc.success

/-- The wildcard test of `mosquitto_sub_topic_check2` at index `i`; `c` is the character before,
`'\0'` at the start. In the loop `len` is not zero, so that `len-1` does not wrap. -/
def misplaced2 (str : Bytes) (len i : Nat) (c : UInt8) : Bool :=
  let b := str.getD i 0
  if b = plus then
    (c ≠ 0 ∧ c ≠ slash) ∨ (i < len - 1 ∧ str.getD (i + 1) 0 ≠ slash)
  else b = hash ∧ ((c ≠ 0 ∧ c ≠ slash) ∨ i < len - 1)

/-- The loop of `mosquitto_sub_topic_check2` with the bytes left. -/
def subTopicLoop2 (str : Bytes) (len : Nat) : Nat → UInt8 → Nat → Option Nat
  | 0, _, hier => some hier
  | left + 1, c, hier =>
    let i := len - (left + 1)
    if misplaced2 str len i c then none
    else
      subTopicLoop2 str len left (str.getD i 0)
        (if str.getD i 0 = slash then hier + 1 else hier)

def mosquittoSubTopicCheck2 (str : Bytes) (len : Nat) : Rc :=
  if len > 65535 then Rc.inval
  else
    match subTopicLoop2 str len len 0 0 with
    | none => Rc.inval
    | some hier => if hier > topicHierarchyLimit then Rc.inval else Rc.success

/-! ## The grammar -/

def LevelOk (l : Bytes) (rest : List Bytes) : Prop :=
  l = [plus] ∨ (l = [hash] ∧ rest = []) ∨ (plus ∉ l ∧ hash ∉ l)

def LevelsOk : List Bytes → Prop
  | [] => True
  | l :: rest => LevelOk l rest ∧ LevelsOk rest

instance (l : Bytes) (rest : List Bytes) : Decidable (LevelOk l rest) :=
  inferInstanceAs (Decidable (_ ∨ _))

instance decidableLevelsOk : ∀ ls : List Bytes, Decidable (LevelsOk ls)
  | [] => isTrue trivial
  | _ :: rest =>
    have := decidableLevelsOk rest
    inferInstanceAs (Decidable (_ ∧ _))

/-- What may follow a character of a level that is no wildcard. -/
def RestOk : List Bytes → Prop
  | [] => True
  | l :: rest => (plus ∉ l ∧ hash ∉ l) ∧ LevelsOk rest

section Grammar

variable {c : Option UInt8} {b : UInt8} {s : Bytes}

theorem misplaced_plain (hb : isWildcard b = false) : misplaced c b s = false := by
  simp only [isWildcard, Bool.or_eq_false_iff, beq_eq_false_iff_ne] at hb
  simp [misplaced, hb.1, hb.2]

theorem misplaced_inside {a : UInt8} (ha : a ≠ slash) (hb : isWildcard b = true) :
    misplaced (some a) b s = true := by
  simp only [isWildcard, Bool.or_eq_true, beq_iff_eq] at hb
  rcases hb with rfl | rfl
  · simp [misplaced, ha]
  · simp [misplaced, ha]

theorem misplaced_plus (hc : c = none ∨ c = some slash) :
    misplaced c plus s = false ↔ s = [] ∨ s.head? = some slash := by
  rcases hc with rfl | rfl <;> simp [misplaced] <;> tauto

theorem misplaced_hash (hc : c = none ∨ c = some slash) :
    misplaced c hash s = false ↔ s = [] := by
  have hne : hash ≠ plus := by decide
  rcases hc with rfl | rfl <;> simp [misplaced, hne]

theorem levels_head_nil {l : Bytes} {rest : List Bytes} (h : levels s = l :: rest) :
    l = [] ↔ s = [] ∨ s.head? = some slash := by
  cases s with
  | nil =>
    cases h
    simp
  | cons a s =>
    by_cases ha : a = slash
    · subst ha
      rw [levels_slash_cons] at h
      cases h
      simp
    · obtain ⟨l', ls, hl⟩ := List.exists_cons_of_ne_nil (levels_ne_nil s)
      rw [levels_cons_of_ne ha, hl, List.modifyHead_cons] at h
      cases h
      simp [ha]

theorem levels_eq_nil {l : Bytes} {rest : List Bytes} (h : levels s = l :: rest) :
    l = [] ∧ rest = [] ↔ s = [] := by
  constructor
  · rintro ⟨rfl, rfl⟩
    exact levels_inj (h.trans levels_nil.symm)
  · rintro rfl
    cases h
    exact ⟨rfl, rfl⟩

/-- A scan that starts a level, or goes on inside one, accepts the levels that are left. -/
theorem filterOk_iff (s : Bytes) :
    (∀ c, c = none ∨ c = some slash → (FilterOk c s ↔ LevelsOk (levels s))) ∧
      ∀ a, a ≠ slash → (FilterOk (some a) s ↔ RestOk (levels s)) := by
  induction s with
  | nil => exact ⟨fun c _ => by simp [FilterOk, LevelsOk, LevelOk],
      fun a _ => by simp [FilterOk, RestOk, LevelsOk]⟩
  | cons b s ih =>
    obtain ⟨hstart, hinside⟩ := ih
    by_cases hb : b = slash
    · subst hb
      have hplain : ∀ c, misplaced c slash s = false := fun c => misplaced_plain (by decide)
      rw [levels_slash_cons]
      refine ⟨fun c _ => ?_, fun a _ => ?_⟩
      · simp [FilterOk, hplain, hstart (some slash) (.inr rfl), LevelsOk, LevelOk]
      · simp [FilterOk, hplain, hstart (some slash) (.inr rfl), RestOk]
    obtain ⟨l, rest, hl⟩ := List.exists_cons_of_ne_nil (levels_ne_nil s)
    have hnext := hinside b hb
    rw [levels_cons_of_ne hb, hl, List.modifyHead_cons]
    rw [hl] at hnext
    refine ⟨fun c hc => ?_, fun a ha => ?_⟩
    · rw [FilterOk, hnext]
      by_cases hplus : b = plus
      · subst hplus
        rw [misplaced_plus hc, ← levels_head_nil hl]
        simp only [RestOk, LevelsOk, LevelOk]
        constructor
        · rintro ⟨rfl, -, hrest⟩
          exact ⟨.inl rfl, hrest⟩
        · rintro ⟨h, hrest⟩
          rcases h with h | ⟨h, -⟩ | ⟨h, -⟩
          · obtain rfl := (List.cons_eq_cons.mp h).2
            exact ⟨rfl, by simp, hrest⟩
          · exact absurd (List.cons_eq_cons.mp h).1 (by decide)
          · exact absurd List.mem_cons_self h
      by_cases hhash : b = hash
      · subst hhash
        rw [misplaced_hash hc, ← levels_eq_nil hl]
        simp only [RestOk, LevelsOk, LevelOk]
        constructor
        · rintro ⟨⟨rfl, rfl⟩, -⟩
          exact ⟨.inr (.inl ⟨rfl, rfl⟩), trivial⟩
        · rintro ⟨h, hrest⟩
          rcases h with h | ⟨h, rfl⟩ | ⟨-, h⟩
          · exact absurd (List.cons_eq_cons.mp h).1 (by decide)
          · obtain rfl := (List.cons_eq_cons.mp h).2
            exact ⟨⟨rfl, rfl⟩, by simp, trivial⟩
          · exact absurd List.mem_cons_self h
      have hplain : isWildcard b = false := by simp [isWildcard, hplus, hhash]
      have hne : ∀ w : UInt8, b ≠ w → ∀ t, b :: l ≠ w :: t := fun w hw t h =>
        hw (List.cons_eq_cons.mp h).1
      simp only [misplaced_plain hplain, true_and, RestOk, LevelsOk, LevelOk,
        hne plus hplus [], hne hash hhash [], false_or, false_and, List.mem_cons,
        Ne.symm hplus, Ne.symm hhash]
    · rw [FilterOk, hnext]
      by_cases hwild : isWildcard b = true
      · rw [misplaced_inside ha hwild]
        simp only [isWildcard, Bool.or_eq_true, beq_iff_eq] at hwild
        simp only [Bool.true_eq_false, false_and, RestOk, List.mem_cons, not_or, false_iff]
        rintro ⟨⟨⟨hp, -⟩, hh, -⟩, -⟩
        rcases hwild with rfl | rfl
        · exact hp rfl
        · exact hh rfl
      · have hplain : isWildcard b = false := by simpa using hwild
        rw [misplaced_plain hplain]
        simp only [isWildcard, Bool.or_eq_false_iff, beq_eq_false_iff_ne] at hplain
        simp only [true_and, RestOk, List.mem_cons, not_or, Ne.symm hplain.1, Ne.symm hplain.2,
          not_false_eq_true]

/-- **A filter passes the scan** exactly if its levels are those of a filter. -/
theorem filterOk_levels : FilterOk none s ↔ LevelsOk (levels s) :=
  (filterOk_iff s).1 none (.inl rfl)

end Grammar

/-! ## The scans -/

/-- No byte fails the test. -/
def clean (bad : Option UInt8 → UInt8 → Bytes → Bool) : Option UInt8 → Bytes → Bool
  | _, [] => true
  | c, b :: s => !bad c b s && clean bad (some b) s

/-- The scan ends with `n` bytes counted at most. -/
def stops (bad : Option UInt8 → UInt8 → Bytes → Bool) : Option UInt8 → Nat → Bytes → Bool
  | _, _, [] => true
  | c, 0, b :: s => bad c b s
  | c, n + 1, b :: s => bad c b s || stops bad (some b) n s

section Scan

variable {bad : Option UInt8 → UInt8 → Bytes → Bool} {c : Option UInt8} {s : Bytes}

theorem stops_iff {n : Nat} : stops bad c n s = true ↔ s.length ≤ n ∨
    ∃ pre b post, s = pre ++ b :: post ∧ pre.length ≤ n ∧ bad (pre.getLast?.or c) b post = true := by
  induction s generalizing c n with
  | nil => simp [stops]
  | cons b s ih =>
    have hhere : bad c b s = true → ∃ pre b' post, b :: s = pre ++ b' :: post ∧ pre.length ≤ n ∧
        bad (pre.getLast?.or c) b' post = true := fun h => ⟨[], b, s, rfl, Nat.zero_le _, h⟩
    have hlast : ∀ pre : Bytes, (b :: pre).getLast?.or c = pre.getLast?.or (some b) := by
      intro pre
      cases pre with
      | nil => rfl
      | cons a pre => rw [List.getLast?_cons_cons, List.getLast?_cons]; rfl
    cases n with
    | zero =>
      rw [stops]
      refine ⟨fun h => .inr (hhere h), ?_⟩
      rintro (h | ⟨pre, b', post, heq, hlen, h⟩)
      · simp at h
      · obtain rfl := List.length_eq_zero_iff.mp (Nat.le_zero.mp hlen)
        cases heq
        exact h
    | succ n =>
      rw [stops, Bool.or_eq_true, ih]
      constructor
      · rintro (h | h | ⟨pre, b', post, rfl, hlen, h⟩)
        · exact .inr (hhere h)
        · exact .inl (Nat.succ_le_succ h)
        · exact .inr ⟨b :: pre, b', post, rfl, Nat.succ_le_succ hlen, by rwa [hlast]⟩
      · rintro (h | ⟨pre, b', post, heq, hlen, h⟩)
        · exact .inr (.inl (Nat.le_of_succ_le_succ h))
        · cases pre with
          | nil =>
            cases heq
            exact .inl h
          | cons a pre =>
            cases heq
            rw [hlast] at h
            exact .inr (.inr ⟨pre, b', post, rfl, Nat.le_of_succ_le_succ hlen, h⟩)

theorem fits_succ {n : Nat} (h : n + 1 < 2 ^ 31) : CInt.add n 1 = .ok ((n + 1 : Nat) : Int) := by
  rw [CInt.add, CInt.ret_of_fits ⟨by omega, by omega⟩]
  rfl

theorem overflows_succ {n : Nat} (h : 2 ^ 31 ≤ n + 1) : CInt.add n 1 = .error .overflow :=
  CInt.ret_of_not_fits fun hfits => by obtain ⟨-, hhi⟩ := hfits; omega

/-- A byte that passes is counted. -/
theorem topicScan_step {b : UInt8} {len hier len' hier' : Int} (hgood : bad c b s = false)
    (hh : countHier b hier = .ok hier') (hl : CInt.add len 1 = .ok len') :
    topicScan bad c len hier (b :: s) = topicScan bad (some b) len' hier' s := by
  rw [topicScan, hgood, hh]
  show (CInt.add len 1 >>= fun len => topicScan bad (some b) len hier' s) = _
  rw [hl]
  rfl

theorem topicScan_overflow {b : UInt8} {len hier : Int} (hgood : bad c b s = false)
    (hl : CInt.add len 1 = .error .overflow) :
    topicScan bad c len hier (b :: s) = .error .overflow := by
  have hhier : countHier b hier = .error .overflow ∨ ∃ x, countHier b hier = .ok x := by
    rw [countHier, CInt.add, CInt.ret]
    split_ifs
    · exact .inr ⟨_, rfl⟩
    · exact .inl rfl
    · exact .inr ⟨_, rfl⟩
  rw [topicScan, hgood]
  rcases hhier with h | ⟨x, h⟩
  · rw [h]
    rfl
  · rw [h]
    show (CInt.add len 1 >>= fun len => topicScan bad (some b) len x s) = _
    rw [hl]
    rfl

/-- What the scan computes with room for `n` more bytes, or that a counter overflows. -/
theorem topicScan_eq {n len hier : Nat} (hh : hier ≤ len) (hn : len + n + 1 = 2 ^ 31) :
    topicScan bad c len hier s =
      if stops bad c n s then
        .ok (if clean bad c s then
          some ((len + s.length : Nat), (hier + s.count slash : Nat)) else none)
      else .error .overflow := by
  induction s generalizing c n len hier with
  | nil => simp [topicScan, stops, clean, pure, Except.pure]
  | cons b s ih =>
    by_cases hbad : bad c b s = true
    · have hstops : stops bad c n (b :: s) = true :=
        stops_iff.mpr (.inr ⟨[], b, s, rfl, Nat.zero_le _, hbad⟩)
      rw [topicScan, if_pos hbad, if_pos hstops, clean, hbad]
      rfl
    have hgood : bad c b s = false := by simpa using hbad
    cases n with
    | succ n =>
      have hhier : countHier b hier =
          .ok (((if b = slash then hier + 1 else hier) : Nat) : Int) := by
        rw [countHier]
        split
        · exact fits_succ (by omega)
        · rfl
      have hcount : (if b = slash then hier + 1 else hier) + s.count slash =
          hier + (b :: s).count slash := by
        by_cases hb : b = slash
        · subst hb
          rw [if_pos rfl, List.count_cons_self]
          omega
        · rw [if_neg hb, List.count_cons_of_ne hb]
      have hlen : len + 1 + s.length = len + (b :: s).length := by
        rw [List.length_cons]
        omega
      rw [topicScan_step hgood hhier (fits_succ (by omega)), stops, hgood, Bool.false_or, clean,
        hgood, Bool.not_false, Bool.true_and,
        @ih (some b) n (len + 1) _ (by split <;> omega) (by omega), hcount, hlen]
    | zero =>
      rw [topicScan_overflow hgood (overflows_succ (by omega)), stops, hgood]
      rfl

end Scan

/-! ## The results -/

/-- What all checks return for a string whose bytes pass the test or do not. -/
def checkResult (good : Bool) (s : Bytes) : Rc :=
  if good = true ∧ s.length ≤ 65535 ∧ s.count slash ≤ topicHierarchyLimit then Rc.success
  else Rc.inval

theorem checkResult_success {good : Bool} {s : Bytes} : checkResult good s = Rc.success ↔
    good = true ∧ s.length ≤ 65535 ∧ s.count slash ≤ topicHierarchyLimit := by
  unfold checkResult
  split
  · rename_i h
    exact ⟨fun _ => h, fun _ => rfl⟩
  · rename_i h
    exact ⟨fun he => absurd he (by decide), fun hgood => absurd hgood h⟩

theorem scanResult_eq (good : Bool) (s : Bytes) :
    scanResult (if good then some ((s.length : Nat), (s.count slash : Nat)) else none) =
      checkResult good s := by
  cases good with
  | false => simp [scanResult, checkResult]
  | true =>
    simp only [if_true, scanResult, checkResult, true_and]
    split_ifs <;> first | rfl | omega

section Result

variable {c : Option UInt8} {s : Bytes}

theorem clean_misplaced : clean misplaced c s = true ↔ FilterOk c s := by
  induction s generalizing c with
  | nil => simp [clean, FilterOk]
  | cons b s ih => simp [clean, FilterOk, ih]

theorem clean_anyWildcard : clean anyWildcard c s = true ↔ plus ∉ s ∧ hash ∉ s := by
  induction s generalizing c with
  | nil => simp [clean]
  | cons b s ih =>
    simp only [clean, anyWildcard, isWildcard, Bool.and_eq_true, Bool.not_eq_true',
      Bool.or_eq_false_iff, beq_eq_false_iff_ne, ih, List.mem_cons, not_or, ne_comm (a := b)]
    tauto

/-- A counted check is the check, unless its counter overflows. -/
theorem topicScan_result (bad : Option UInt8 → UInt8 → Bytes → Bool) (s : Bytes) :
    scanResult <$> topicScan bad none 0 0 s =
      if stops bad none (2 ^ 31 - 1) s then .ok (checkResult (clean bad none s) s)
      else .error .overflow := by
  have hscan := @topicScan_eq bad none s (2 ^ 31 - 1) 0 0 (Nat.le_refl 0) (by omega)
  rw [Nat.zero_add, Nat.zero_add] at hscan
  have hzero : topicScan bad none 0 0 s = topicScan bad none ((0 : Nat) : Int) ((0 : Nat) : Int) s :=
    rfl
  rw [hzero, hscan]
  split
  · rw [← scanResult_eq]
    rfl
  · rfl

theorem subTopicLoop_eq {len hier : Nat} : subTopicLoop c len hier s =
    if clean misplaced c s then some (len + s.length, hier + s.count slash) else none := by
  induction s generalizing c len hier with
  | nil => simp [subTopicLoop, clean]
  | cons b s ih =>
    rw [subTopicLoop, clean]
    by_cases hbad : misplaced c b s = true
    · rw [if_pos hbad, hbad]
      rfl
    · rw [if_neg hbad, ih, Bool.eq_false_iff.mpr hbad, Bool.not_false, Bool.true_and]
      by_cases hb : b = slash
      · subst hb
        simp only [if_true, List.length_cons, List.count_cons_self, Nat.add_assoc, Nat.add_comm 1]
      · simp only [if_neg hb, List.length_cons, List.count_cons_of_ne hb, Nat.add_assoc,
          Nat.add_comm 1]

theorem mosquittoSubTopicCheck_eq (s : Bytes) :
    mosquittoSubTopicCheck s = checkResult (clean misplaced none s) s := by
  rw [← scanResult_eq, mosquittoSubTopicCheck, subTopicLoop_eq]
  cases clean misplaced none s with
  | false => rfl
  | true =>
    simp only [if_true, scanResult, Nat.zero_add]
    split_ifs <;> first | rfl | omega

end Result

/-! ### With a length -/

section WithLength

variable {str : Bytes}

theorem getD_middle (pre : Bytes) (b : UInt8) (s : Bytes) : (pre ++ b :: s).getD pre.length 0 = b := by
  induction pre with
  | nil => rfl
  | cons a pre ih => exact ih

theorem pubTopicLoop2_eq {s pre : Bytes} {hier : Nat} (hstr : str = pre ++ s) :
    pubTopicLoop2 str str.length s.length hier =
      if clean anyWildcard pre.getLast? s then some (hier + s.count slash) else none := by
  induction s generalizing pre hier with
  | nil => simp [pubTopicLoop2, clean]
  | cons b s ih =>
    have hi : str.length - (s.length + 1) = pre.length := by
      rw [hstr, List.length_append, List.length_cons]
      omega
    have hb : str.getD pre.length 0 = b := by rw [hstr, getD_middle]
    rw [List.length_cons, pubTopicLoop2, hi, clean]
    simp only [hb]
    by_cases hbad : anyWildcard pre.getLast? b s = true
    · rw [if_pos (show isWildcard b = true from hbad), hbad]
      rfl
    · have hnext : str = (pre ++ [b]) ++ s := by rw [hstr, List.append_assoc]; rfl
      rw [if_neg (show ¬ isWildcard b = true from hbad), Bool.eq_false_iff.mpr hbad, Bool.not_false,
        Bool.true_and, ih hnext, List.getLast?_concat]
      by_cases hs : b = slash
      · subst hs
        simp only [if_true, List.count_cons_self, Nat.add_assoc, Nat.add_comm 1]
      · simp only [if_neg hs, List.count_cons_of_ne hs]

/-- Looking ahead by index is looking at what follows. -/
theorem misplaced2_eq {s pre : Bytes} {b : UInt8} (hstr : str = pre ++ b :: s) (hz : 0 ∉ str) :
    misplaced2 str str.length pre.length (pre.getLast?.getD 0) = misplaced pre.getLast? b s := by
  have hb : str.getD pre.length 0 = b := by rw [hstr, getD_middle]
  have hc : (pre.getLast?.getD 0 ≠ 0 ∧ pre.getLast?.getD 0 ≠ slash) ↔
      (pre.getLast? ≠ none ∧ pre.getLast? ≠ some slash) := by
    cases hlast : pre.getLast? with
    | none => simp
    | some a =>
      have ha : a ≠ 0 := by
        rintro rfl
        exact hz (hstr ▸ List.mem_append_left _ (List.mem_of_getLast? hlast))
      simp [ha]
  have hlen : pre.length < str.length - 1 ↔ s ≠ [] := by
    rw [hstr, List.length_append, List.length_cons, ← List.length_pos_iff]
    omega
  have hnext : (pre.length < str.length - 1 ∧ str.getD (pre.length + 1) 0 ≠ slash) ↔
      (s ≠ [] ∧ s.head? ≠ some slash) := by
    rw [hlen]
    refine and_congr_right fun hne => ?_
    obtain ⟨a, t, rfl⟩ := List.exists_cons_of_ne_nil hne
    have ha : str.getD (pre.length + 1) 0 = a := by
      have h := getD_middle (pre ++ [b]) a t
      rwa [List.length_append, List.length_singleton, List.append_assoc, List.singleton_append,
        ← hstr] at h
    rw [ha]
    simp
  unfold misplaced2 misplaced
  simp only [hb, hc, hnext]
  simp only [hlen]

theorem subTopicLoop2_eq {s pre : Bytes} {hier : Nat} (hstr : str = pre ++ s) (hz : 0 ∉ str) :
    subTopicLoop2 str str.length s.length (pre.getLast?.getD 0) hier =
      if clean misplaced pre.getLast? s then some (hier + s.count slash) else none := by
  induction s generalizing pre hier with
  | nil => simp [subTopicLoop2, clean]
  | cons b s ih =>
    have hi : str.length - (s.length + 1) = pre.length := by
      rw [hstr, List.length_append, List.length_cons]
      omega
    have hb : str.getD pre.length 0 = b := by rw [hstr, getD_middle]
    rw [List.length_cons, subTopicLoop2, hi, clean]
    simp only [misplaced2_eq hstr hz, hb]
    by_cases hbad : misplaced pre.getLast? b s = true
    · rw [if_pos hbad, hbad]
      rfl
    · have hnext : str = (pre ++ [b]) ++ s := by rw [hstr, List.append_assoc]; rfl
      have hlast : (pre ++ [b]).getLast? = some b := List.getLast?_concat
      have hrun := @ih _ (if b = slash then hier + 1 else hier) hnext
      rw [hlast, Option.getD_some] at hrun
      rw [if_neg hbad, Bool.eq_false_iff.mpr hbad, Bool.not_false, Bool.true_and, hrun]
      by_cases hs : b = slash
      · subst hs
        simp only [if_true, List.count_cons_self, Nat.add_assoc, Nat.add_comm 1]
      · simp only [if_neg hs, List.count_cons_of_ne hs]

end WithLength

section Exact

variable {s : Bytes}

theorem mosquittoPubTopicCheck2_eq :
    mosquittoPubTopicCheck2 s s.length = checkResult (clean anyWildcard none s) s := by
  have hloop : pubTopicLoop2 s s.length s.length 0 =
      if clean anyWildcard none s then some (0 + s.count slash) else none :=
    @pubTopicLoop2_eq s s [] 0 rfl
  rw [mosquittoPubTopicCheck2, hloop]
  cases clean anyWildcard none s with
  | false => simp [checkResult]
  | true =>
    simp only [if_true, Nat.zero_add, checkResult, true_and]
    split_ifs <;> first | rfl | omega

theorem mosquittoSubTopicCheck2_eq (hz : 0 ∉ s) :
    mosquittoSubTopicCheck2 s s.length = checkResult (clean misplaced none s) s := by
  have hloop : subTopicLoop2 s s.length s.length 0 0 =
      if clean misplaced none s then some (0 + s.count slash) else none :=
    @subTopicLoop2_eq s s [] 0 rfl hz
  rw [mosquittoSubTopicCheck2, hloop]
  cases clean misplaced none s with
  | false => simp [checkResult]
  | true =>
    simp only [if_true, Nat.zero_add, checkResult, true_and]
    split_ifs <;> first | rfl | omega

/-- The four checks accept the topics and the filters, and agree. -/
structure ChecksExact (s : Bytes) : Prop where
  sub : ∃ rc, mosquittoSubTopicCheckInt s = .ok rc ∧
    (rc = Rc.success ↔ s.length ≤ 65535 ∧ s.count slash ≤ topicHierarchyLimit ∧
      LevelsOk (levels s)) ∧ mosquittoSubTopicCheck2 s s.length = rc
  pub : ∃ rc, mosquittoPubTopicCheckInt s = .ok rc ∧
    (rc = Rc.success ↔ s.length ≤ 65535 ∧ s.count slash ≤ topicHierarchyLimit ∧
      plus ∉ s ∧ hash ∉ s) ∧ mosquittoPubTopicCheck2 s s.length = rc

/-- `mosquitto_sub_topic_check` is the check without bounds, unless its counter overflows. -/
theorem mosquittoSubTopicCheckInt_eq (s : Bytes) : mosquittoSubTopicCheckInt s =
    if stops misplaced none (2 ^ 31 - 1) s then .ok (mosquittoSubTopicCheck s)
    else .error .overflow := by
  rw [mosquittoSubTopicCheck_eq]
  exact topicScan_result misplaced s

theorem stops_anyWildcard {n : Nat} (h : stops misplaced none n s = true) :
    stops anyWildcard none n s = true := by
  rw [stops_iff] at h ⊢
  rcases h with h | ⟨pre, b, post, hs, hlen, h⟩
  · exact .inl h
  · refine .inr ⟨pre, b, post, hs, hlen, ?_⟩
    by_contra hb
    rw [misplaced_plain (by simpa [anyWildcard] using hb)] at h
    cases h

theorem checksExact_of_stops (hz : 0 ∉ s) (h : stops misplaced none (2 ^ 31 - 1) s = true) :
    ChecksExact s := by
  refine ⟨⟨checkResult (clean misplaced none s) s, ?_, ?_, mosquittoSubTopicCheck2_eq hz⟩,
    ⟨checkResult (clean anyWildcard none s) s, ?_, ?_, mosquittoPubTopicCheck2_eq⟩⟩
  · rw [mosquittoSubTopicCheckInt_eq, if_pos h, mosquittoSubTopicCheck_eq]
  · rw [checkResult_success, clean_misplaced, filterOk_levels]
    tauto
  · exact (topicScan_result anyWildcard s).trans (if_pos (stops_anyWildcard h))
  · rw [checkResult_success, clean_anyWildcard]
    tauto

theorem not_checksExact (h : ¬ stops misplaced none (2 ^ 31 - 1) s = true) : ¬ ChecksExact s := by
  rintro ⟨⟨rc, hrun, -⟩, -⟩
  rw [mosquittoSubTopicCheckInt_eq, if_neg h] at hrun
  cases hrun

example : LevelsOk (levels (ascii "a/+/#")) ∧ ¬ LevelsOk (levels (ascii "a+/b")) := by decide

/-- **The topic checks are exact** for a string below 2^31 bytes, and for a longer one in which a
wildcard is misplaced within the first 2^31; for no other string does the `int` hold its
length. -/
theorem topic_checks_exact_iff (hz : 0 ∉ s) : ChecksExact s ↔ s.length < 2 ^ 31 ∨
    ∃ pre b post, s = pre ++ b :: post ∧ pre.length < 2 ^ 31 ∧
      misplaced pre.getLast? b post = true := by
  have hstops : stops misplaced none (2 ^ 31 - 1) s = true ↔ s.length < 2 ^ 31 ∨
      ∃ pre b post, s = pre ++ b :: post ∧ pre.length < 2 ^ 31 ∧
        misplaced pre.getLast? b post = true := by
    have hle : ∀ n : Nat, n ≤ 2 ^ 31 - 1 ↔ n < 2 ^ 31 := fun n => by omega
    simp only [stops_iff, hle, Option.or_none]
  rw [← hstops]
  exact ⟨fun h => not_not.mp fun hn => not_checksExact hn h, checksExact_of_stops hz⟩

/-- The filter `+/a`. -/
theorem topic_checks_exact_plus : ChecksExact [plus, slash, 97] :=
  (topic_checks_exact_iff (by decide)).mpr (.inl (by decide))

/-- A name of 2^31 letters: `mosquitto_sub_topic_check` has counted past the largest `int`. -/
theorem long_name_overflows : ¬ ChecksExact (List.replicate (2 ^ 31) 97) := by
  refine not_checksExact fun h => ?_
  rcases stops_iff.mp h with h | ⟨pre, b, post, hs, -, h⟩
  · rw [List.length_replicate] at h
    omega
  · have hb : b = 97 := by
      refine List.eq_of_mem_replicate (n := 2 ^ 31) ?_
      rw [hs]
      exact List.mem_append_right _ List.mem_cons_self
    rw [misplaced_plain (by rw [hb]; decide)] at h
    cases h

end Exact

end AdaptiveMqtt.Topic
