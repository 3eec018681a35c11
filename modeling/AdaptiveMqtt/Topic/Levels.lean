import AdaptiveMqtt.Topic.Model

/-!
# Levels and tokens

`levels s` cuts `s` at its slashes. `sub__topic_tokenise` gives the levels of a
topic that starts with `$`, the levels after an empty one for every other topic,
and, for `$share/group/rest`, the levels of `rest` after an empty one together
with the group. The tokens and the share name determine the string.
-/

namespace AdaptiveMqtt.Topic

/-- The `/`-separated levels of a topic or filter. -/
def levels (s : Bytes) : List Bytes := s.splitOn slash

@[simp] theorem levels_nil : levels [] = [[]] := rfl

@[simp] theorem levels_ne_nil (s : Bytes) : levels s ≠ [] := List.splitOn_ne_nil _ _

@[simp] theorem levels_slash_cons (s : Bytes) : levels (slash :: s) = [] :: levels s := by
  simp [levels, List.splitOn_cons_eq_if_modifyHead]

theorem levels_cons_of_ne {b : UInt8} (h : b ≠ slash) (s : Bytes) :
    levels (b :: s) = (levels s).modifyHead (b :: ·) := by
  simp [levels, List.splitOn_cons_eq_if_modifyHead, h]

theorem levels_inj {s t : Bytes} (h : levels s = levels t) : s = t := by
  have hs : [slash].intercalate (levels s) = s := List.intercalate_splitOn slash
  have ht : [slash].intercalate (levels t) = t := List.intercalate_splitOn slash
  rw [← hs, ← ht, h]

theorem length_levels (s : Bytes) : (levels s).length = s.count slash + 1 := by
  induction s with
  | nil => rfl
  | cons b s ih =>
    by_cases h : b = slash
    · subst h; simp [ih]
    · rw [levels_cons_of_ne h, List.length_modifyHead, ih, List.count_cons_of_ne h]

theorem levels_append_slash {s : Bytes} (h : slash ∉ s) (t : Bytes) :
    levels (s ++ slash :: t) = s :: levels t :=
  List.splitOn_append_cons_self_of_not_mem h t

theorem levels_append (s t : Bytes) : levels (s ++ slash :: t) = levels s ++ levels t := by
  induction s with
  | nil => simp
  | cons b s ih =>
    by_cases hb : b = slash
    · subst hb
      simp [ih]
    · obtain ⟨l, ls, hl⟩ := List.exists_cons_of_ne_nil (levels_ne_nil s)
      rw [List.cons_append, levels_cons_of_ne hb, ih, levels_cons_of_ne hb, hl]
      rfl

theorem slash_notMem_takeWhile (s : Bytes) : slash ∉ s.takeWhile (· ≠ slash) := by
  intro h
  simpa using List.mem_takeWhile_imp h

/-- The first level starts where the string starts. -/
theorem head_levels {s : Bytes} (b : UInt8) (hb : b ≠ slash) :
    (∃ l, (levels s).head? = some (b :: l)) ↔ s.head? = some b := by
  cases s with
  | nil => simp
  | cons c s =>
    by_cases hc : c = slash
    · subst hc; simpa using hb.symm
    · rw [levels_cons_of_ne hc]
      obtain ⟨l, ls, hl⟩ := List.exists_cons_of_ne_nil (levels_ne_nil s)
      simp [hl]

theorem prefix_of_head_levels {s l : Bytes} (h : (levels s).head? = some l) : l <+: s := by
  induction s generalizing l with
  | nil =>
    obtain rfl : [] = l := by simpa using h
    exact List.prefix_rfl
  | cons b s ih =>
    by_cases hb : b = slash
    · subst hb
      obtain rfl : [] = l := by simpa using h
      exact List.nil_prefix
    · rw [levels_cons_of_ne hb] at h
      obtain ⟨a, ls, ha⟩ := List.exists_cons_of_ne_nil (levels_ne_nil s)
      obtain rfl : b :: a = l := by simpa [ha] using h
      exact List.cons_prefix_cons.mpr ⟨rfl, ih (by rw [ha]; rfl)⟩

/-! ## The tokeniser -/

/-- One call of `strtok_hier` takes off the first level. -/
theorem strtokHier_spec (s : Bytes) :
    (strtokHier s = (s, none) ∧ levels s = [s]) ∨
      ∃ token rest, strtokHier s = (token, some rest) ∧ levels s = token :: levels rest ∧
        rest.length < s.length := by
  unfold strtokHier
  have hsplit := List.takeWhile_append_dropWhile (p := (· ≠ slash)) (l := s)
  cases hd : s.dropWhile (· ≠ slash) with
  | nil =>
    rw [hd, List.append_nil] at hsplit
    have hno : slash ∉ s := hsplit ▸ slash_notMem_takeWhile s
    exact .inl ⟨rfl, List.splitOn_eq_singleton hno⟩
  | cons c rest =>
    -- the byte that stopped the scan is a slash
    have hc : c = slash := by
      have hne : s.dropWhile (· ≠ slash) ≠ [] := by rw [hd]; simp
      have := List.head_dropWhile_not (· ≠ slash) hne
      simp only [hd, List.head_cons] at this
      simpa using this
    subst hc
    rw [hd] at hsplit
    have hlev := levels_append_slash (slash_notMem_takeWhile s) rest
    rw [hsplit] at hlev
    refine .inr ⟨_, rest, rfl, hlev, ?_⟩
    have := congrArg List.length hsplit
    simp only [List.length_append, List.length_cons] at this
    omega

theorem strtokLoop_eq_levels {s : Bytes} : ∀ {fuel : Nat}, s.length < fuel →
    strtokLoop fuel s = levels s := by
  intro fuel
  induction fuel generalizing s with
  | zero => intro h; omega
  | succ fuel ih =>
    intro hlen
    unfold strtokLoop
    rcases strtokHier_spec s with ⟨htok, hlev⟩ | ⟨token, rest, htok, hlev, hrest⟩
    · rw [htok, hlev]
    · rw [htok, hlev]
      simp only [ih (show rest.length < fuel by omega)]

/-- The tokens of a topic or filter that is not shared. -/
def tokens (s : Bytes) : List Bytes :=
  if s.head? = some dollar then levels s else [] :: levels s

theorem tokens_ne_nil (s : Bytes) : tokens s ≠ [] := by
  unfold tokens; split <;> simp

/-- The share name and the levels of a filter whose first level is `$share`. -/
def shareTokens : List Bytes → Except Rc (List Bytes × Option Bytes)
  | _ :: group :: rest => .ok ([] :: rest, some group)
  | _ => .error Rc.protocol

theorem tokenCount_of_dollar {s : Bytes} (h : s.head? = some dollar) :
    tokenCount s = (levels s).length := by
  cases s with
  | nil => simp at h
  | cons b s =>
    obtain rfl : b = dollar := by simpa using h
    rw [length_levels, List.count_cons_of_ne (by decide)]
    rfl

theorem ascii_share : ascii "$share" = dollar :: [115, 104, 97, 114, 101] := by decide

theorem subTopicTokenise_eq {s : Bytes} (hs : s ≠ []) :
    subTopicTokenise s =
      if (levels s).head? = some (ascii "$share") then shareTokens (levels s)
      else .ok (tokens s, none) := by
  have hloop : strtokLoop (s.length + 1) s = levels s := strtokLoop_eq_levels (Nat.lt_succ_self _)
  have hdollar : (levels s).head? = some (ascii "$share") → s.head? = some dollar := by
    intro h
    exact (head_levels dollar (by decide)).mp ⟨_, by rw [h, ascii_share]⟩
  have hempty : ¬ ([] : Bytes) = ascii "$share" := by decide
  unfold subTopicTokenise
  rw [if_neg hs]
  simp only [hloop]
  by_cases hd : s.head? = some dollar
  · simp only [tokens, hd, if_true]
    split
    · rename_i hshare
      rw [tokenCount_of_dollar hd]
      rcases hl : levels s with _ | ⟨a, _ | ⟨g, rest⟩⟩
      · exact absurd hl (levels_ne_nil s)
      · simp [shareTokens]
      · simp [shareTokens]
    · rfl
  · have hns : ¬ (levels s).head? = some (ascii "$share") := fun h => hd (hdollar h)
    simp [tokens, hd, hns, hempty]

theorem sublist_of_mem_levels {s l : Bytes} (h : l ∈ levels s) : l.Sublist s := by
  induction s generalizing l with
  | nil => simp_all
  | cons b s ih =>
    by_cases hb : b = slash
    · subst hb
      rw [levels_slash_cons, List.mem_cons] at h
      rcases h with rfl | h
      · exact List.nil_sublist _
      · exact (ih h).cons slash
    · rw [levels_cons_of_ne hb] at h
      obtain ⟨a, ls, hl⟩ := List.exists_cons_of_ne_nil (levels_ne_nil s)
      rw [hl, List.modifyHead_cons, List.mem_cons] at h
      rcases h with rfl | h
      · exact (ih (by rw [hl]; exact List.mem_cons_self)).cons_cons b
      · exact (ih (by rw [hl]; exact List.mem_cons_of_mem a h)).cons b

/-- The first token is empty or starts with `$`. -/
theorem head_tokens (s : Bytes) : ∃ k rest, tokens s = k :: rest ∧
    (if s.head? = some dollar then ∃ l, k = dollar :: l else k = []) := by
  unfold tokens
  split
  · rename_i hd
    obtain ⟨l, hl⟩ := (head_levels dollar (by decide)).mpr hd
    obtain ⟨a, ls, ha⟩ := List.exists_cons_of_ne_nil (levels_ne_nil s)
    exact ⟨a, ls, ha, l, by simpa [ha] using hl⟩
  · exact ⟨[], levels s, rfl, rfl⟩

theorem tokens_inj {s t : Bytes} (h : tokens s = tokens t) : s = t := by
  obtain ⟨k, rest, hk, hfirst⟩ := head_tokens s
  obtain ⟨k', rest', hk', hfirst'⟩ := head_tokens t
  obtain ⟨rfl, -⟩ : k = k' ∧ rest = rest' := by
    rw [hk, hk'] at h
    exact List.cons_eq_cons.mp h
  apply levels_inj
  unfold tokens at h
  by_cases hs : s.head? = some dollar <;> by_cases ht : t.head? = some dollar
  · rwa [if_pos hs, if_pos ht] at h
  · -- the first token of `s` starts with `$` and that of `t` is empty
    rw [if_pos hs] at hfirst
    rw [if_neg ht] at hfirst'
    obtain ⟨l, hl⟩ := hfirst
    cases hl.symm.trans hfirst'
  · rw [if_neg hs] at hfirst
    rw [if_pos ht] at hfirst'
    obtain ⟨l, hl⟩ := hfirst'
    cases hl.symm.trans hfirst
  · rw [if_neg hs, if_neg ht] at h
    exact (List.cons_eq_cons.mp h).2

theorem tokens_of_not_shared {s : Bytes} {topics : List Bytes}
    (h : subTopicTokenise s = .ok (topics, none)) : s ≠ [] ∧ topics = tokens s := by
  have hs : s ≠ [] := by rintro rfl; simp [subTopicTokenise] at h
  rw [subTopicTokenise_eq hs] at h
  split at h
  · rcases hls : levels s with _ | ⟨a, _ | ⟨g, rest⟩⟩ <;>
      simp [hls, shareTokens] at h
  · simp only [Except.ok.injEq, Prod.mk.injEq, and_true] at h
    exact ⟨hs, h.symm⟩

theorem mem_levels_of_mem_topics {s l : Bytes} {topics : List Bytes} {share : Option Bytes}
    (h : subTopicTokenise s = .ok (topics, share)) (hl : l ∈ topics) : l = [] ∨ l ∈ levels s := by
  have hs : s ≠ [] := by rintro rfl; simp [subTopicTokenise] at h
  rw [subTopicTokenise_eq hs] at h
  split at h
  · rcases hls : levels s with _ | ⟨a, _ | ⟨g, rest⟩⟩ <;>
      simp only [hls, shareTokens, reduceCtorEq, Except.ok.injEq, Prod.mk.injEq] at h
    rw [← h.1, List.mem_cons] at hl
    rcases hl with rfl | hl
    · exact .inl rfl
    · exact .inr (by simp [hl])
  · simp only [Except.ok.injEq, Prod.mk.injEq] at h
    rw [← h.1, tokens] at hl
    split at hl
    · exact .inr hl
    · exact List.mem_cons.mp hl

/-- A token is no longer than the string. -/
theorem length_le_of_mem_topics {s l : Bytes} {topics : List Bytes} {share : Option Bytes}
    (h : subTopicTokenise s = .ok (topics, share)) (hl : l ∈ topics) : l.length ≤ s.length := by
  rcases mem_levels_of_mem_topics h hl with rfl | hm
  · simp
  · exact (sublist_of_mem_levels hm).length_le

/-- Tokens and share name determine the string. -/
theorem subTopicTokenise_inj {s t : Bytes} {r : List Bytes × Option Bytes}
    (hs : subTopicTokenise s = .ok r) (ht : subTopicTokenise t = .ok r) : s = t := by
  have hsne : s ≠ [] := by rintro rfl; simp [subTopicTokenise] at hs
  have htne : t ≠ [] := by rintro rfl; simp [subTopicTokenise] at ht
  rw [subTopicTokenise_eq hsne] at hs
  rw [subTopicTokenise_eq htne] at ht
  apply levels_inj
  split at hs <;> split at ht
  · rename_i h1 h2
    rcases hl : levels s with _ | ⟨a, _ | ⟨g, rest⟩⟩ <;> rcases hl' : levels t with _ | ⟨a', _ | ⟨g', rest'⟩⟩ <;>
      simp only [hl, hl', shareTokens, reduceCtorEq, Except.ok.injEq] at hs ht
    rw [← ht] at hs
    simp only [Prod.mk.injEq, List.cons.injEq, true_and, Option.some.injEq] at hs
    simp only [hl, hl', List.head?_cons, Option.some.injEq] at h1 h2
    rw [h1, h2, hs.1, hs.2]
  · rcases hl : levels s with _ | ⟨a, _ | ⟨g, rest⟩⟩ <;>
      simp only [hl, shareTokens, reduceCtorEq, Except.ok.injEq] at hs
    rw [← hs] at ht
    simp at ht
  · rcases hl : levels t with _ | ⟨a, _ | ⟨g, rest⟩⟩ <;>
      simp only [hl, shareTokens, reduceCtorEq, Except.ok.injEq] at ht
    rw [← ht] at hs
    simp at hs
  · have heq : tokens s = tokens t := by
      rw [← ht] at hs
      simpa using hs
    exact congrArg levels (tokens_inj heq)

end AdaptiveMqtt.Topic
