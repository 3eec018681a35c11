import AdaptiveMqtt.Topic.Levels

/-!
# The matcher against the level-wise match

`levelMatch` is what a filter means: `+` stands for one level, a final `#` for
any number of levels including none, every other level for itself. The character
matcher of `lib/util_topic.c` computes it for every filter and topic that pass
their checks (`mosquittoTopicMatchesSub_eq`).

The induction follows the filter. Mid-level, the remainders of the two current
levels are compared like whole levels: a checked filter has no wildcard there
(`FilterOk`), so the remainder of its level only matches itself.
-/

namespace AdaptiveMqtt.Topic

def levelMatch : List Bytes → List Bytes → Bool
  | [], ts => ts.isEmpty
  | f :: fs, ts =>
    if f = [hash] ∧ fs = [] then true
    else
      match ts with
      | [] => false
      | t :: ts => (f = [plus] ∨ f = t) && levelMatch fs ts

@[simp] theorem levelMatch_hash (ts : List Bytes) : levelMatch [[hash]] ts = true := by
  simp [levelMatch]

@[simp] theorem levelMatch_nil (ts : List Bytes) : levelMatch [] ts = ts.isEmpty := rfl

theorem levelMatch_cons {f : Bytes} (h : f ≠ [hash]) (fs : List Bytes) (t : Bytes)
    (ts : List Bytes) :
    levelMatch (f :: fs) (t :: ts) = ((f = [plus] ∨ f = t) && levelMatch fs ts) := by
  rw [levelMatch, if_neg (fun hf => h hf.1)]

theorem levelMatch_cons_nil {f : Bytes} (h : f ≠ [hash]) (fs : List Bytes) :
    levelMatch (f :: fs) [] = false := by
  rw [levelMatch, if_neg (fun hf => h hf.1)]

/-- What a filter means, level by level: `+` is one level, a final `#` any number of
levels including none, and every other level is itself. -/
inductive LevelsMatch : List Bytes → List Bytes → Prop where
  | done : LevelsMatch [] []
  | hash (ts : List Bytes) : LevelsMatch [[AdaptiveMqtt.hash]] ts
  | plus {fs ts : List Bytes} (t : Bytes) : LevelsMatch fs ts →
      LevelsMatch ([AdaptiveMqtt.plus] :: fs) (t :: ts)
  | same {fs ts : List Bytes} (t : Bytes) : LevelsMatch fs ts → LevelsMatch (t :: fs) (t :: ts)

theorem levelMatch_iff {fs ts : List Bytes} : levelMatch fs ts = true ↔ LevelsMatch fs ts := by
  induction fs generalizing ts with
  | nil =>
    rw [levelMatch_nil, List.isEmpty_iff]
    exact ⟨fun h => h ▸ .done, fun h => by cases h; rfl⟩
  | cons f fs ih =>
    by_cases hf : f = [hash] ∧ fs = []
    · obtain ⟨rfl, rfl⟩ := hf
      exact ⟨fun _ => .hash ts, fun _ => levelMatch_hash ts⟩
    cases ts with
    | nil =>
      rw [levelMatch, if_neg hf]
      refine ⟨fun h => (nomatch h), fun h => ?_⟩
      cases h
      exact absurd ⟨rfl, rfl⟩ hf
    | cons t ts =>
      rw [levelMatch, if_neg hf]
      simp only [Bool.and_eq_true, decide_eq_true_eq, ih]
      constructor
      · rintro ⟨rfl | rfl, h⟩
        · exact .plus t h
        · exact .same f h
      · intro h
        cases h with
        | hash => exact absurd ⟨rfl, rfl⟩ hf
        | plus t h => exact ⟨.inl rfl, h⟩
        | same t h => exact ⟨.inr rfl, h⟩

/-! ## Checked filters and topics -/

/-- No byte of the filter is misplaced; `c` is the character before it. -/
def FilterOk (c : Option UInt8) : Bytes → Prop
  | [] => True
  | b :: str => misplaced c b str = false ∧ FilterOk (some b) str

theorem subTopicLoop_ok {c : Option UInt8} {len hier : Nat} {s : Bytes} {r : Nat × Nat}
    (h : subTopicLoop c len hier s = some r) :
    FilterOk c s ∧ r = (len + s.length, hier + s.count slash) := by
  induction s generalizing c len hier with
  | nil =>
    simp only [subTopicLoop, Option.some.injEq] at h
    exact ⟨trivial, by simp [← h]⟩
  | cons b s ih =>
    simp only [subTopicLoop] at h
    split at h
    · cases h
    · rename_i hb
      obtain ⟨hok, hr⟩ := ih h
      refine ⟨⟨by simpa using hb, hok⟩, ?_⟩
      by_cases hs : b = slash
      · subst hs
        rw [hr]
        simp only [if_true, List.length_cons, List.count_cons_self]
        exact Prod.ext (by omega) (by omega)
      · rw [hr]
        simp only [if_neg hs, List.length_cons, List.count_cons_of_ne hs]
        exact Prod.ext (by omega) rfl

theorem mosquittoSubTopicCheck_ok {s : Bytes} (h : mosquittoSubTopicCheck s = Rc.success) :
    FilterOk none s ∧ s.length ≤ 65535 ∧ s.count slash ≤ topicHierarchyLimit := by
  unfold mosquittoSubTopicCheck at h
  split at h
  · cases h
  · rename_i len hier hl
    obtain ⟨hok, hr⟩ := subTopicLoop_ok hl
    simp only [Nat.zero_add, Prod.mk.injEq] at hr
    obtain ⟨rfl, rfl⟩ := hr
    split at h
    · cases h
    · split at h
      · cases h
      · exact ⟨hok, by omega, by omega⟩

theorem pubTopicLoop_ok {len hier : Nat} {s : Bytes} {r : Nat × Nat}
    (h : pubTopicLoop len hier s = some r) : s.any isWildcard = false := by
  induction s generalizing len hier with
  | nil => rfl
  | cons b s ih =>
    simp only [pubTopicLoop] at h
    split at h
    · cases h
    · rename_i hb
      simp [hb, ih h]

theorem mosquittoPubTopicCheck_ok {s : Bytes} (h : mosquittoPubTopicCheck s = Rc.success) :
    s.any isWildcard = false := by
  unfold mosquittoPubTopicCheck at h
  split at h
  · cases h
  · rename_i hl
    exact pubTopicLoop_ok hl

section FilterOk

variable {c : Option UInt8} {b : UInt8} {s : Bytes}

theorem FilterOk.tail (h : FilterOk c (b :: s)) : FilterOk (some b) s := h.2

theorem FilterOk.plus (h : FilterOk c (plus :: s)) :
    (c = none ∨ c = some slash) ∧ (s = [] ∨ s.head? = some slash) := by
  have := h.1
  simp only [misplaced, if_true, decide_eq_false_iff_not, not_or, not_and_or, not_not] at this
  exact ⟨this.1, this.2⟩

theorem FilterOk.hash (h : FilterOk c (hash :: s)) : (c = none ∨ c = some slash) ∧ s = [] := by
  have := h.1
  simp only [misplaced, show (AdaptiveMqtt.hash = AdaptiveMqtt.plus) = False by decide, if_false,
    true_and, decide_eq_false_iff_not, not_or, not_and_or, not_not] at this
  exact this

theorem FilterOk.not_wildcard (h : FilterOk (some b) s) (hb : b ≠ slash) :
    s.head? ≠ some AdaptiveMqtt.plus ∧ s.head? ≠ some AdaptiveMqtt.hash := by
  cases s with
  | nil => simp
  | cons a s =>
    constructor
    · intro ha
      obtain rfl : a = AdaptiveMqtt.plus := by simpa using ha
      rcases h.plus.1 with h | h <;> simp_all
    · intro ha
      obtain rfl : a = AdaptiveMqtt.hash := by simpa using ha
      rcases h.hash.1 with h | h <;> simp_all

theorem FilterOk.hashInside (h : FilterOk c s) : hashInside s = false := by
  induction s generalizing c with
  | nil => rfl
  | cons a s ih =>
    simp only [Topic.hashInside, ih h.tail, Bool.or_false]
    by_cases ha : a = AdaptiveMqtt.hash
    · subst ha; simp [h.hash.2]
    · simp [ha]

end FilterOk

theorem FilterOk.hash_last {c : Option UInt8} {s : Bytes} (h : FilterOk c s) {pre r : List Bytes}
    (hl : levels s = pre ++ [AdaptiveMqtt.hash] :: r) : r = [] := by
  induction s generalizing c pre with
  | nil => rcases pre with _ | ⟨a, pre⟩ <;> simp at hl
  | cons b s ih =>
    by_cases hb : b = slash
    · subst hb
      rw [levels_slash_cons] at hl
      rcases pre with _ | ⟨a, pre⟩
      · simp at hl
      · exact ih h.tail (List.cons_eq_cons.mp hl).2
    · rw [levels_cons_of_ne hb] at hl
      obtain ⟨a, ls, ha⟩ := List.exists_cons_of_ne_nil (levels_ne_nil s)
      rw [ha, List.modifyHead_cons] at hl
      rcases pre with _ | ⟨a', pre⟩
      · obtain ⟨h1, rfl⟩ := List.cons_eq_cons.mp hl
        obtain ⟨rfl, -⟩ := List.cons_eq_cons.mp h1
        obtain rfl := h.hash.2
        exact (List.cons_eq_cons.mp ha).2.symm
      · have htail : levels s = (a :: pre) ++ [AdaptiveMqtt.hash] :: r := by
          rw [ha, (List.cons_eq_cons.mp hl).2]
          rfl
        exact ih h.tail htail

/-! ## One step of the loop -/

theorem skipLevel_spec {topic : Bytes} (h : topic.any isWildcard = false) :
    ∃ rest l T, skipLevel topic = some rest ∧ rest.any isWildcard = false ∧
      (rest = [] ∨ rest.head? = some slash) ∧
      levels topic = l :: T ∧ levels rest = [] :: T := by
  induction topic with
  | nil => exact ⟨[], [], [], rfl, rfl, .inl rfl, rfl, rfl⟩
  | cons b topic ih =>
    by_cases hb : b = slash
    · subst hb
      exact ⟨slash :: topic, [], levels topic, by simp [skipLevel], h, .inr rfl, by simp, by simp⟩
    · simp only [List.any_cons, Bool.or_eq_false_iff] at h
      obtain ⟨rest, l, T, h1, h2, h3, h4, h5⟩ := ih h.2
      refine ⟨rest, b :: l, T, ?_, h2, h3, ?_, h5⟩
      · simp [skipLevel, hb, h.1, h1]
      · rw [levels_cons_of_ne hb, h4, List.modifyHead_cons]

/-- A whole level `+` and the empty remainder of a level behave alike once a
level of the topic has been skipped. -/
theorem levelMatch_plus_skip {sub : Bytes} (hsub : sub = [] ∨ sub.head? = some slash)
    (l : Bytes) (T : List Bytes) :
    levelMatch (levels (plus :: sub)) (l :: T) = levelMatch (levels sub) ([] :: T) := by
  have hne : ([] : Bytes) ≠ [hash] := by decide
  have hp : ([plus] : Bytes) ≠ [hash] := by decide
  rw [levels_cons_of_ne (by decide)]
  rcases hsub with rfl | hs
  · simp [levelMatch_cons hne, levelMatch_cons hp]
  · obtain ⟨sub', rfl⟩ : ∃ sub', sub = slash :: sub' := by
      cases sub with
      | nil => simp at hs
      | cons a sub' => exact ⟨sub', by simpa using hs⟩
    simp [levelMatch_cons hne, levelMatch_cons hp]

/-- An equal byte on both sides can be dropped. -/
theorem levelMatch_same {s : UInt8} {sub topic : Bytes} (hs : isWildcard s = false)
    (hok : FilterOk (some s) sub) :
    levelMatch (levels (s :: sub)) (levels (s :: topic)) =
      levelMatch (levels sub) (levels topic) := by
  by_cases h : s = slash
  · subst h
    simp [levelMatch_cons (show ([] : Bytes) ≠ [hash] by decide)]
  · obtain ⟨l, ls, hl⟩ := List.exists_cons_of_ne_nil (levels_ne_nil sub)
    obtain ⟨t, ts, ht⟩ := List.exists_cons_of_ne_nil (levels_ne_nil topic)
    rw [levels_cons_of_ne h, levels_cons_of_ne h, hl, ht]
    simp only [isWildcard, Bool.or_eq_false_iff, beq_eq_false_iff_ne] at hs
    have hw := hok.not_wildcard h
    have hhead : ∀ w : UInt8, w ≠ slash → l = [w] → sub.head? = some w := by
      intro w hw hlw
      exact (head_levels w hw).mp ⟨[], by rw [hl, hlw]; rfl⟩
    have hl1 : l ≠ [hash] := fun e => hw.2 (hhead _ (by decide) e)
    have hl2 : l ≠ [plus] := fun e => hw.1 (hhead _ (by decide) e)
    have hl3 : s :: l ≠ [hash] := by simp [hs.2]
    rw [List.modifyHead_cons, List.modifyHead_cons, levelMatch_cons hl3, levelMatch_cons hl1]
    simp [hs.1, hl2]

theorem levelMatch_mismatch {s : UInt8} {sub topic : Bytes} (hs : isWildcard s = false)
    (htopic : topic.head? ≠ some s) (hparent : topic = [] → s :: sub ≠ [slash, hash]) :
    levelMatch (levels (s :: sub)) (levels topic) = false := by
  simp only [isWildcard, Bool.or_eq_false_iff, beq_eq_false_iff_ne] at hs
  have hne : ([] : Bytes) ≠ [hash] := by decide
  by_cases h : s = slash
  · subst h
    rw [levels_slash_cons]
    cases topic with
    | nil =>
      rw [levels_nil, levelMatch_cons hne]
      -- only the parent match `/#` would accept the end of the topic
      have hsub : sub ≠ [hash] := fun e => hparent rfl (by rw [e])
      obtain ⟨l, ls, hl⟩ := List.exists_cons_of_ne_nil (levels_ne_nil sub)
      have hlast : ¬ (l = [hash] ∧ ls = []) := by
        rintro ⟨rfl, rfl⟩
        exact hsub (levels_inj (by rw [hl]; rfl))
      rw [hl, levelMatch, if_neg hlast]
      simp
    | cons t topic =>
      have ht : t ≠ slash := by simpa using htopic
      obtain ⟨l, ls, hl⟩ := List.exists_cons_of_ne_nil (levels_ne_nil topic)
      rw [levels_cons_of_ne ht, hl, List.modifyHead_cons, levelMatch_cons hne]
      simp
  · obtain ⟨l, ls, hl⟩ := List.exists_cons_of_ne_nil (levels_ne_nil sub)
    have hl3 : s :: l ≠ [hash] := by simp [hs.2]
    rw [levels_cons_of_ne h, hl, List.modifyHead_cons]
    cases topic with
    | nil => rw [levels_nil, levelMatch_cons hl3]; simp [hs.1]
    | cons t topic =>
      have hts : t ≠ s := by simpa using htopic
      by_cases ht : t = slash
      · subst ht
        rw [levels_slash_cons, levelMatch_cons hl3]; simp [hs.1]
      · obtain ⟨m, ms, hm⟩ := List.exists_cons_of_ne_nil (levels_ne_nil topic)
        rw [levels_cons_of_ne ht, hm, List.modifyHead_cons, levelMatch_cons hl3]
        simp [hs.1, hts.symm]

/-! ## The loop -/

/-- The loop computes the level-wise match of the remainders. It is never
entered with both strings used up, nor with the topic used up and `/#` left
unless a `+` has just been read: the branches before it return then. -/
theorem topicMatchesLoop_eq {prev : Option UInt8} {sub topic : Bytes}
    (hok : FilterOk prev sub) (hwild : topic.any isWildcard = false)
    (hboth : ¬ (sub = [] ∧ topic = []))
    (hparent : topic = [] → sub = [slash, hash] → prev = some plus) :
    topicMatchesLoop prev sub topic = (Rc.success, levelMatch (levels sub) (levels topic)) := by
  induction sub generalizing prev topic with
  | nil =>
    have hne : topic ≠ [] := fun h => hboth ⟨rfl, h⟩
    obtain ⟨t, topic, rfl⟩ := List.exists_cons_of_ne_nil hne
    simp only [topicMatchesLoop, hwild, Bool.false_eq_true, if_false, levels_nil]
    by_cases ht : t = slash
    · subst ht
      obtain ⟨l, ls, hl⟩ := List.exists_cons_of_ne_nil (levels_ne_nil topic)
      rw [levels_slash_cons, hl, levelMatch_cons (by decide)]
      simp
    · obtain ⟨l, ls, hl⟩ := List.exists_cons_of_ne_nil (levels_ne_nil topic)
      rw [levels_cons_of_ne ht, hl, List.modifyHead_cons, levelMatch_cons (by decide)]
      simp
  | cons s sub ih =>
    have hhead : topic.head?.any isWildcard = false := by
      cases topic with
      | nil => rfl
      | cons t topic => simp_all
    rw [topicMatchesLoop, hhead]
    simp only [Bool.false_eq_true, if_false]
    by_cases heq : topic.head? = some s
    · -- equal bytes
      rw [if_neg (not_not.mpr heq)]
      obtain ⟨topic, rfl⟩ : ∃ t, topic = s :: t := by
        cases topic with
        | nil => simp at heq
        | cons t topic => exact ⟨topic, by simpa using heq⟩
      simp only [List.any_cons, Bool.or_eq_false_iff] at hwild
      rw [levelMatch_same hwild.1 hok.tail, List.tail_cons]
      split
      · rename_i h
        obtain ⟨rfl, rfl⟩ := h
        decide
      split
      · rename_i h
        obtain ⟨rfl, rfl⟩ := h
        decide
      split
      · rename_i h
        obtain ⟨rfl, rfl⟩ := h
        have hs : s = slash := by
          rcases hok.tail.plus.1 with h | h
          · cases h
          · simpa using h
        rw [if_neg (not_not.mpr hs)]
        decide
      · rename_i h1 h2 h3
        exact ih hok.tail hwild.2 h2 fun h h' => absurd ⟨h, h'⟩ h1
    · rw [if_pos heq]
      by_cases hp : s = plus
      · subst hp
        obtain ⟨hc, hsub⟩ := hok.plus
        obtain ⟨rest, l, T, h1, h2, h3, h4, h5⟩ := skipLevel_spec hwild
        have hc' : ¬ (prev ≠ none ∧ prev ≠ some slash) := by rcases hc with h | h <;> simp [h]
        have hsub' : ¬ (sub ≠ [] ∧ sub.head? ≠ some slash) := by
          rcases hsub with h | h <;> simp [h]
        simp only [if_true, if_neg hc', if_neg hsub', h1]
        rw [h4, levelMatch_plus_skip hsub, ← h5]
        split
        · rename_i h
          obtain ⟨rfl, rfl⟩ := h
          decide
        · rename_i h
          exact ih hok.tail h2 (fun h' => h ⟨h'.2, h'.1⟩) fun _ _ => rfl
      · rw [if_neg hp]
        by_cases hh : s = hash
        · subst hh
          obtain ⟨hc, rfl⟩ := hok.hash
          have hc' : ¬ (prev ≠ none ∧ prev ≠ some slash) := by rcases hc with h | h <;> simp [h]
          simp only [if_true, if_neg hc', hwild, ne_eq, not_true_eq_false, if_false,
            Bool.false_eq_true]
          rw [show levels [hash] = [[hash]] by decide, levelMatch_hash]
        · have hs : isWildcard s = false := by simp [isWildcard, hp, hh]
          rw [if_neg hh]
          split
          · -- foo/bar against foo/+/#
            rename_i h
            obtain ⟨rfl, -, rfl, hsub⟩ := h
            obtain ⟨sub, rfl⟩ : ∃ t, sub = hash :: t := by
              cases sub with
              | nil => simp at hsub
              | cons a sub => exact ⟨sub, by simpa using hsub⟩
            obtain rfl := hok.tail.hash.2
            decide
          · rename_i h
            have hin : hashInside (s :: sub) = false := hok.hashInside
            rw [hin, levelMatch_mismatch hs heq]
            · simp
            · intro ht hsub
              simp only [List.cons.injEq] at hsub
              obtain ⟨rfl, rfl⟩ := hsub
              exact h ⟨ht, hparent ht rfl, rfl, rfl⟩

/-- A filter and a topic of which exactly one starts with `$` do not match. -/
def dollarAgree (sub topic : Bytes) : Prop :=
  sub.head? = some dollar ↔ topic.head? = some dollar

instance (sub topic : Bytes) : Decidable (dollarAgree sub topic) :=
  inferInstanceAs (Decidable (_ ↔ _))

/-- The matcher against any filter without misplaced wildcards and any topic without wildcards,
however long. -/
theorem topicMatches_levels {sub topic : Bytes} (hsub : sub ≠ []) (htopic : topic ≠ [])
    (hok : FilterOk none sub) (hwild : topic.any isWildcard = false) :
    mosquittoTopicMatchesSub sub topic =
      (Rc.success, dollarAgree sub topic && levelMatch (levels sub) (levels topic)) := by
  unfold mosquittoTopicMatchesSub
  rw [if_neg (by simp [hsub, htopic])]
  by_cases hd : dollarAgree sub topic
  · rw [if_neg, topicMatchesLoop_eq hok hwild (fun h => hsub h.1) (fun h => absurd h htopic)]
    · simp [hd]
    · unfold dollarAgree at hd
      tauto
  · rw [if_pos]
    · simp [hd]
    · unfold dollarAgree at hd
      tauto

/-- **The matcher is the level-wise match.** -/
theorem mosquittoTopicMatchesSub_eq {sub topic : Bytes} (hsub : sub ≠ []) (htopic : topic ≠ [])
    (hs : mosquittoSubTopicCheck sub = Rc.success)
    (ht : mosquittoPubTopicCheck topic = Rc.success) :
    mosquittoTopicMatchesSub sub topic =
      (Rc.success, dollarAgree sub topic && levelMatch (levels sub) (levels topic)) :=
  topicMatches_levels hsub htopic (mosquittoSubTopicCheck_ok hs).1 (mosquittoPubTopicCheck_ok ht)

/-! ## Filters and topics with a prefix -/

section Prefix

variable {c : Option UInt8} {front sub topic : Bytes}

theorem FilterOk.start (h : FilterOk c sub) : FilterOk none sub := by
  cases sub with
  | nil => trivial
  | cons b sub =>
    refine ⟨?_, h.2⟩
    have hb := h.1
    unfold misplaced at hb ⊢
    simp only [ne_eq, reduceCtorEq, not_false_eq_true, not_true_eq_false, false_and, false_or] at hb ⊢
    split
    · rename_i hp
      rw [if_pos hp] at hb
      simp only [decide_eq_false_iff_not, not_or] at hb ⊢
      exact hb.2
    · rename_i hp
      rw [if_neg hp] at hb
      simp only [decide_eq_false_iff_not, not_and, not_or] at hb ⊢
      exact fun hh => (hb hh).2

/-- What follows a prefix of a checked filter is one itself. -/
theorem FilterOk.rest (h : FilterOk c (front ++ sub)) : FilterOk none sub := by
  induction front generalizing c with
  | nil => exact h.start
  | cons b front ih => exact ih h.tail

/-- A prefix without wildcards on both sides can be dropped. -/
theorem levelMatch_append (hfront : front.any isWildcard = false) (hok : FilterOk c (front ++ sub)) :
    levelMatch (levels (front ++ sub)) (levels (front ++ topic)) =
      levelMatch (levels sub) (levels topic) := by
  induction front generalizing c with
  | nil => rfl
  | cons b front ih =>
    rw [List.any_cons, Bool.or_eq_false_iff] at hfront
    have hrest : FilterOk (some b) (front ++ sub) := hok.tail
    rw [List.cons_append, List.cons_append, levelMatch_same hfront.1 hrest]
    exact ih hfront.2 hrest

/-- A topic that matches without carrying the prefix is the parent of `#`. -/
theorem parent_of_not_prefix (hfront : front.any isWildcard = false)
    (hok : FilterOk c (front ++ sub)) (hnot : ¬ front <+: topic)
    (hmatch : levelMatch (levels (front ++ sub)) (levels topic) = true) :
    front = topic ++ [slash] ∧ sub = [hash] := by
  induction front generalizing c topic with
  | nil => exact absurd List.nil_prefix hnot
  | cons b front ih =>
    rw [List.any_cons, Bool.or_eq_false_iff] at hfront
    have hrest : FilterOk (some b) (front ++ sub) := hok.tail
    by_cases hhead : topic.head? = some b
    · obtain ⟨topic, rfl⟩ : ∃ t, topic = b :: t := by
        cases topic with
        | nil => simp at hhead
        | cons t topic => exact ⟨topic, by simpa using hhead⟩
      rw [List.cons_append, levelMatch_same hfront.1 hrest] at hmatch
      obtain ⟨hf, hs⟩ := ih hfront.2 hrest
        (fun h => hnot (List.cons_prefix_cons.mpr ⟨rfl, h⟩)) hmatch
      exact ⟨by rw [hf]; rfl, hs⟩
    · by_cases hparent : topic = [] ∧ b :: (front ++ sub) = [slash, hash]
      · obtain ⟨rfl, hp⟩ := hparent
        rw [List.cons_eq_cons] at hp
        obtain ⟨rfl, hp⟩ := hp
        cases front with
        | nil => exact ⟨rfl, hp⟩
        | cons a front =>
          rw [List.cons_append, List.cons_eq_cons] at hp
          rw [hp.1] at hfront
          exact absurd hfront.2 (by simp [isWildcard])
      · rw [List.cons_append, levelMatch_mismatch hfront.1 hhead
          (fun ht hs => hparent ⟨ht, hs⟩)] at hmatch
        cases hmatch

end Prefix

/-- **What matching means**: for every filter and topic that pass their checks the matcher
succeeds, and says whether the levels match, provided that both or neither start with `$`. -/
theorem topic_matches_by_levels {sub topic : Bytes} (hsub : sub ≠ []) (htopic : topic ≠ [])
    (hs : mosquittoSubTopicCheck sub = Rc.success)
    (ht : mosquittoPubTopicCheck topic = Rc.success) :
    (mosquittoTopicMatchesSub sub topic).1 = Rc.success ∧
      ((mosquittoTopicMatchesSub sub topic).2 = true ↔
        LevelsMatch (levels sub) (levels topic) ∧
          (sub.head? = some dollar ↔ topic.head? = some dollar)) := by
  rw [mosquittoTopicMatchesSub_eq hsub htopic hs ht]
  refine ⟨rfl, ?_⟩
  simp only [Bool.and_eq_true, decide_eq_true_eq, levelMatch_iff]
  exact and_comm

/-- The parent of `foo/bar/#`, through a `+`. -/
theorem topic_matches_by_levels_parent :
    mosquittoTopicMatchesSub (ascii "foo/+/#") (ascii "foo/bar") = (Rc.success, true) ∧
      LevelsMatch (levels (ascii "foo/+/#")) (levels (ascii "foo/bar")) :=
  ⟨by decide, ((topic_matches_by_levels (by decide) (by decide) (by decide) (by decide)).2.mp
    (by decide)).1⟩

/-- A checked filter goes on after no token `#`, and does not start with one. -/
theorem hash_last_topics {sub : Bytes} {topics pre r : List Bytes} {share : Option Bytes}
    (hs : mosquittoSubTopicCheck sub = Rc.success)
    (htok : subTopicTokenise sub = .ok (topics, share)) (h : topics = pre ++ [hash] :: r) :
    pre ≠ [] ∧ r = [] := by
  have hok := (mosquittoSubTopicCheck_ok hs).1
  have hne : sub ≠ [] := by rintro rfl; simp [subTopicTokenise] at htok
  rw [subTopicTokenise_eq hne] at htok
  split at htok
  · rcases hl : levels sub with _ | ⟨a, _ | ⟨g, rest⟩⟩ <;>
      simp only [hl, shareTokens, reduceCtorEq, Except.ok.injEq, Prod.mk.injEq] at htok
    rw [h] at htok
    rcases pre with _ | ⟨a', pre⟩
    · exact absurd htok.1 (by simp)
    · refine ⟨by simp, ?_⟩
      have hl' : levels sub = (a :: g :: pre) ++ [hash] :: r := by
        rw [hl, (List.cons_eq_cons.mp htok.1).2]
        rfl
      exact hok.hash_last hl'
  · simp only [Except.ok.injEq, Prod.mk.injEq] at htok
    obtain ⟨k, rest, hk, hfirst⟩ := head_tokens sub
    have hpre : pre ≠ [] := by
      rintro rfl
      rw [h, hk] at htok
      have hkh : k = [hash] := (List.cons_eq_cons.mp htok.1).1
      rw [hkh] at hfirst
      split at hfirst
      · obtain ⟨l, hl⟩ := hfirst
        exact absurd (List.cons_eq_cons.mp hl).1 (by decide)
      · exact absurd hfirst (by simp)
    refine ⟨hpre, ?_⟩
    rw [h] at htok
    unfold tokens at htok
    split at htok
    · exact hok.hash_last htok.1
    · rcases pre with _ | ⟨a', pre⟩
      · exact absurd rfl hpre
      · exact hok.hash_last (List.cons_eq_cons.mp htok.1).2

theorem not_wildcard_of_level {topic x : Bytes}
    (ht : mosquittoPubTopicCheck topic = Rc.success) (hx : x = [] ∨ x ∈ levels topic) :
    x ≠ [plus] ∧ x ≠ [hash] := by
  have hbytes := mosquittoPubTopicCheck_ok ht
  rw [List.any_eq_false] at hbytes
  rcases hx with rfl | hx
  · exact ⟨by simp, by simp⟩
  · have hsub := (sublist_of_mem_levels hx).subset
    constructor
    · rintro rfl
      exact hbytes plus (hsub List.mem_cons_self) rfl
    · rintro rfl
      exact hbytes hash (hsub List.mem_cons_self) rfl

theorem not_wildcard_of_mem_tokens {topic x : Bytes}
    (ht : mosquittoPubTopicCheck topic = Rc.success) (hx : x ∈ tokens topic) :
    x ≠ [plus] ∧ x ≠ [hash] := by
  refine not_wildcard_of_level ht ?_
  unfold tokens at hx
  split at hx
  · exact .inr hx
  · exact List.mem_cons.mp hx

theorem tokens_match (sub topic : Bytes) :
    ((tokens sub).headD [] = (tokens topic).headD [] ∧ levelMatch (tokens sub) (tokens topic)) ↔
      (dollarAgree sub topic ∧ levelMatch (levels sub) (levels topic)) := by
  obtain ⟨k, rest, hk, hfk⟩ := head_tokens sub
  obtain ⟨k', rest', hk', hfk'⟩ := head_tokens topic
  have hnil : ([] : Bytes) ≠ [hash] := by decide
  unfold dollarAgree
  by_cases hs : sub.head? = some dollar <;> by_cases ht : topic.head? = some dollar
  · rw [if_pos hs] at hfk
    obtain ⟨l, rfl⟩ := hfk
    have hd : (dollar :: l) ≠ [hash] := fun e => absurd (List.cons_eq_cons.mp e).1 (by decide)
    have hp : (dollar :: l) ≠ [plus] := fun e => absurd (List.cons_eq_cons.mp e).1 (by decide)
    have h1 : levels sub = (dollar :: l) :: rest := by rwa [tokens, if_pos hs] at hk
    have h2 : levels topic = k' :: rest' := by rwa [tokens, if_pos ht] at hk'
    rw [hk, hk', h1, h2, levelMatch_cons hd]
    simp only [hs, ht, List.headD_cons, hp, false_or, Bool.and_eq_true, decide_eq_true_eq, true_and]
    tauto
  · rw [if_pos hs] at hfk
    rw [if_neg ht] at hfk'
    obtain ⟨l, rfl⟩ := hfk
    simp [hk, hk', hfk', hs, ht]
  · rw [if_neg hs] at hfk
    rw [if_pos ht] at hfk'
    obtain ⟨l, rfl⟩ := hfk'
    simp [hk, hk', hfk, hs, ht]
  · rw [tokens, tokens, if_neg hs, if_neg ht, levelMatch_cons hnil]
    simp [hs, ht]

end AdaptiveMqtt.Topic
