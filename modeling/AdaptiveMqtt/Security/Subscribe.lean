import AdaptiveMqtt.Topic.Match

/-!
# The subscription filters an ACL covers

`sub_acl_check` of the dynamic security plugin: an ACL filter that allows (or denies) a
subscription should cover it, so that every topic the subscription matches is one the ACL
matches. A final `#` is cut off both filters, and what is left is compared level by level.

Cutting makes `#` and `/#` the same empty string, so the ACL `/#` passes for the
subscription `#`. That is the only pair of filters for which the check is unsound.
-/

namespace AdaptiveMqtt.Security

open Topic

/-! ## The check -/

/-- `hash_check`: a final `#` is cut off with the slash before it. -/
def hashCheck (s : Bytes) : Bool × Bytes :=
  if s.length = 1 ∧ s.head? = some hash then (true, [])
  else if s.length > 1 ∧ s[s.length - 2]? = some slash ∧ s[s.length - 1]? = some hash then
    (true, s.take (s.length - 2))
  else (false, s)

def countHierLevels (s : Bytes) : Nat := s.count slash + 1

/-- `strtok_hier` on the rest of a string, which is `NULL` at the end. -/
def nextToken : Option Bytes → Option Bytes × Option Bytes
  | none => (none, none)
  | some s => (some (strtokHier s).1, (strtokHier s).2)

def subAclLoop (aclHash : Bool) (aclLevels : Nat) :
    Nat → Nat → Option Bytes → Option Bytes → Bool
  | 0, _, _, _ => true
  | n + 1, i, acl, sub =>
    let a := nextToken acl
    let s := nextToken sub
    if i < aclLevels ∧ (a.1 = some [plus] ∨ a.1 = s.1) then
      subAclLoop aclHash aclLevels n (i + 1) a.2 s.2
    else if i ≥ aclLevels ∧ aclHash = true then
      subAclLoop aclHash aclLevels n (i + 1) a.2 s.2
    else false

def subAclCheck (acl sub : Bytes) : Bool :=
  if acl.length = 1 ∧ acl.head? = some hash then true
  else
    let a := hashCheck acl
    let s := hashCheck sub
    if s.1 = true ∧ a.1 = false then false
    else
      let aclLevels := countHierLevels a.2
      let subLevels := countHierLevels s.2
      if aclLevels > subLevels then false
      else if subLevels > aclLevels ∧ a.1 = false then false
      else subAclLoop a.1 aclLevels subLevels 0 (some a.2) (some s.2)

/-! ## By levels -/

/-- The levels of an ACL filter cover those of a subscription; with `aclHash` any number of
levels may follow. -/
def covers (aclHash : Bool) : List Bytes → List Bytes → Bool
  | [], [] => true
  | [], _ :: _ => aclHash
  | _ :: _, [] => false
  | a :: as, s :: ss => (a = [plus] ∨ a = s) && covers aclHash as ss

/-- What is left of a string has these levels. -/
def Rest (o : Option Bytes) (ls : List Bytes) : Prop :=
  match o with
  | none => ls = []
  | some s => levels s = ls

theorem nextToken_cons {o : Option Bytes} {l : Bytes} {ls : List Bytes} (h : Rest o (l :: ls)) :
    (nextToken o).1 = some l ∧ Rest (nextToken o).2 ls := by
  cases o with
  | none => exact absurd h (List.cons_ne_nil l ls)
  | some s =>
    simp only [Rest] at h
    simp only [nextToken]
    rcases strtokHier_spec s with ⟨htok, hlev⟩ | ⟨token, rest, htok, hlev, -⟩
    · rw [h] at hlev
      obtain ⟨rfl, rfl⟩ := List.cons_eq_cons.mp hlev
      rw [htok]
      exact ⟨rfl, rfl⟩
    · rw [h] at hlev
      obtain ⟨rfl, rfl⟩ := List.cons_eq_cons.mp hlev
      rw [htok]
      exact ⟨rfl, rfl⟩

theorem subAclLoop_after {aclLevels i : Nat} (hi : aclLevels ≤ i) (n : Nat) (acl sub : Option Bytes) :
    subAclLoop true aclLevels n i acl sub = true := by
  induction n generalizing i acl sub with
  | zero => rfl
  | succ n ih =>
    rw [subAclLoop, if_neg (by omega), if_pos ⟨hi, rfl⟩]
    exact ih (by omega) _ _

theorem subAclLoop_eq {aclHash : Bool} {as ss : List Bytes} {acl sub : Option Bytes} {i : Nat}
    (ha : Rest acl as) (hs : Rest sub ss) (hlen : as.length ≤ ss.length)
    (hmore : as.length < ss.length → aclHash = true) :
    subAclLoop aclHash (i + as.length) ss.length i acl sub = covers aclHash as ss := by
  induction ss generalizing as acl sub i with
  | nil =>
    obtain rfl : as = [] := List.length_eq_zero_iff.mp (Nat.le_zero.mp hlen)
    rfl
  | cons s ss ih =>
    cases as with
    | nil =>
      obtain rfl : aclHash = true := hmore (Nat.succ_pos _)
      exact subAclLoop_after le_rfl _ acl sub
    | cons a as =>
      obtain ⟨hta, hra⟩ := nextToken_cons ha
      obtain ⟨hts, hrs⟩ := nextToken_cons hs
      simp only [List.length_cons] at hlen hmore
      have hrec : subAclLoop aclHash (i + (a :: as).length) ss.length (i + 1) (nextToken acl).2
          (nextToken sub).2 = covers aclHash as ss := by
        rw [List.length_cons, show i + (as.length + 1) = i + 1 + as.length by omega]
        exact ih hra hrs (by omega) fun h => hmore (by omega)
      have hlt : i < i + (a :: as).length := by rw [List.length_cons]; omega
      rw [show (s :: ss).length = ss.length + 1 from rfl, subAclLoop, covers, hta, hts]
      by_cases heq : a = [plus] ∨ a = s
      · rw [if_pos ⟨hlt, by simpa using heq⟩, hrec]
        simp [heq]
      · rw [if_neg fun h => heq (by simpa using h.2), if_neg (by omega)]
        simp [heq]

theorem covers_length {aclHash : Bool} {as ss : List Bytes} (h : covers aclHash as ss = true) :
    as.length ≤ ss.length ∧ (as.length < ss.length → aclHash = true) := by
  induction as generalizing ss with
  | nil =>
    cases ss with
    | nil => exact ⟨le_rfl, fun h => absurd h (lt_irrefl _)⟩
    | cons s ss => exact ⟨Nat.zero_le _, fun _ => h⟩
  | cons a as ih =>
    cases ss with
    | nil => cases h
    | cons s ss =>
      rw [covers, Bool.and_eq_true] at h
      obtain ⟨hle, hmore⟩ := ih h.2
      simp only [List.length_cons]
      exact ⟨by omega, fun hlt => hmore (by omega)⟩

theorem subAclCheck_eq (acl sub : Bytes) :
    subAclCheck acl sub = true ↔ acl = [hash] ∨
      ((hashCheck sub).1 = true → (hashCheck acl).1 = true) ∧
        covers (hashCheck acl).1 (levels (hashCheck acl).2) (levels (hashCheck sub).2) = true := by
  have hone : (acl.length = 1 ∧ acl.head? = some hash) ↔ acl = [hash] := by
    rcases acl with _ | ⟨b, _ | ⟨c, acl⟩⟩ <;> simp
  unfold subAclCheck
  by_cases hacl : acl = [hash]
  · rw [if_pos (hone.mpr hacl)]
    simp [hacl]
  rw [if_neg fun h => hacl (hone.mp h)]
  simp only [hacl, false_or]
  by_cases hh : (hashCheck sub).1 = true ∧ (hashCheck acl).1 = false
  · rw [if_pos hh]
    simp [hh]
  rw [if_neg hh]
  have himp : (hashCheck sub).1 = true → (hashCheck acl).1 = true := by simpa using hh
  rw [and_iff_right himp]
  unfold countHierLevels
  rw [← length_levels, ← length_levels]
  by_cases hlen : (levels (hashCheck acl).2).length > (levels (hashCheck sub).2).length
  · rw [if_pos hlen]
    refine ⟨fun h => (nomatch h), fun h => absurd (covers_length h).1 (not_le.mpr hlen)⟩
  rw [if_neg hlen]
  by_cases hmore : (levels (hashCheck sub).2).length > (levels (hashCheck acl).2).length ∧
      (hashCheck acl).1 = false
  · rw [if_pos hmore]
    refine ⟨fun h => (nomatch h), fun h => ?_⟩
    rw [(covers_length h).2 hmore.1] at hmore
    exact absurd hmore.2 (by decide)
  rw [if_neg hmore]
  have hloop := @subAclLoop_eq (hashCheck acl).1 _ _ (some (hashCheck acl).2)
    (some (hashCheck sub).2) 0 rfl rfl (not_lt.mp hlen) fun h => by simpa [h] using hmore
  rw [Nat.zero_add] at hloop
  rw [hloop]

/-! ## What is cut off -/

theorem hashCheck_cases (s : Bytes) :
    (s = [hash] ∧ hashCheck s = (true, [])) ∨
      (∃ s', s = s' ++ [slash, hash] ∧ hashCheck s = (true, s')) ∨
      (s ≠ [hash] ∧ (∀ s', s ≠ s' ++ [slash, hash]) ∧ hashCheck s = (false, s)) := by
  unfold hashCheck
  by_cases hone : s.length = 1 ∧ s.head? = some hash
  · obtain rfl : s = [hash] := by
      rcases s with _ | ⟨b, _ | ⟨c, s⟩⟩ <;> simp_all
    exact .inl ⟨rfl, rfl⟩
  rw [if_neg hone]
  by_cases htwo : s.length > 1 ∧ s[s.length - 2]? = some slash ∧ s[s.length - 1]? = some hash
  · rw [if_pos htwo]
    obtain ⟨hlen, hsl, hha⟩ := htwo
    refine .inr (.inl ⟨_, ?_, rfl⟩)
    have hdrop : s.drop (s.length - 2) = [slash, hash] := by
      apply List.ext_getElem?
      intro i
      rw [List.getElem?_drop]
      rcases i with _ | _ | i
      · exact hsl
      · rw [show s.length - 2 + (0 + 1) = s.length - 1 by omega]
        exact hha
      · rw [List.getElem?_eq_none (by omega), List.getElem?_eq_none (by simp)]
    calc s = s.take (s.length - 2) ++ s.drop (s.length - 2) := (List.take_append_drop _ s).symm
      _ = s.take (s.length - 2) ++ [slash, hash] := by rw [hdrop]
  · rw [if_neg htwo]
    refine .inr (.inr ⟨?_, ?_, rfl⟩)
    · rintro rfl
      exact hone ⟨rfl, rfl⟩
    · rintro s' rfl
      refine htwo ⟨by simp, ?_, ?_⟩
      · simp
      · simp

/-- A level `#` of a checked filter is its end. -/
theorem hash_level_cases {c : Option UInt8} {s : Bytes} (hok : FilterOk c s)
    (h : [hash] ∈ levels s) : s = [hash] ∨ ∃ s', s = s' ++ [slash, hash] := by
  induction s generalizing c with
  | nil => simp at h
  | cons b s ih =>
    by_cases hb : b = slash
    · subst hb
      rw [levels_slash_cons, List.mem_cons] at h
      rcases h with h | h
      · exact absurd h (by simp)
      · rcases ih hok.tail h with rfl | ⟨s', rfl⟩
        · exact .inr ⟨[], rfl⟩
        · exact .inr ⟨slash :: s', rfl⟩
    · obtain ⟨l, ls, hl⟩ := List.exists_cons_of_ne_nil (levels_ne_nil s)
      rw [levels_cons_of_ne hb, hl, List.modifyHead_cons, List.mem_cons] at h
      rcases h with h | h
      · obtain rfl : hash = b := (List.cons_eq_cons.mp h).1
        rw [hok.hash.2]
        exact .inl rfl
      · rcases ih hok.tail (hl ▸ List.mem_cons_of_mem l h) with rfl | ⟨s', rfl⟩
        · obtain rfl : [] = ls := (List.cons_eq_cons.mp hl).2
          cases h
        · exact .inr ⟨b :: s', rfl⟩

def cutOff (isHash : Bool) : List Bytes := if isHash then [[hash]] else []

/-- Every checked filter but `#` is what is left of it and what was cut off, and no `#` is
left. -/
theorem hashCheck_levels {s : Bytes} (hs : mosquittoSubTopicCheck s = Rc.success)
    (hne : s ≠ [hash]) :
    levels s = levels (hashCheck s).2 ++ cutOff (hashCheck s).1 ∧
      [hash] ∉ levels (hashCheck s).2 := by
  have hok := (mosquittoSubTopicCheck_ok hs).1
  rcases hashCheck_cases s with ⟨h, -⟩ | ⟨s', rfl, hcut⟩ | ⟨-, hno, hcut⟩
  · exact absurd h hne
  · have hlev : levels (s' ++ [slash, hash]) = levels s' ++ [[hash]] := levels_append s' [hash]
    rw [hcut]
    refine ⟨hlev, fun hmem => ?_⟩
    obtain ⟨pre, r, hpre⟩ := List.append_of_mem hmem
    rw [hpre, List.append_assoc, List.cons_append] at hlev
    exact absurd (hok.hash_last hlev) (by simp)
  · rw [hcut]
    refine ⟨(List.append_nil _).symm, fun hmem => ?_⟩
    rcases hash_level_cases hok hmem with h | ⟨s', h⟩
    · exact hne h
    · exact hno s' h

/-! ## Soundness -/

/-- Covered levels match only what the ACL matches. -/
theorem covers_sound {aclHash subHash : Bool} {as ss ts : List Bytes} (hss : [hash] ∉ ss)
    (himp : subHash = true → aclHash = true) (h : covers aclHash as ss = true)
    (hm : LevelsMatch (ss ++ cutOff subHash) ts) : LevelsMatch (as ++ cutOff aclHash) ts := by
  induction as generalizing ss ts with
  | nil =>
    cases haclHash : aclHash with
    | true => exact .hash ts
    | false =>
      have hsub : subHash = false := by
        by_contra hne
        exact absurd (himp (by simpa using hne)) (by simp [haclHash])
      rw [haclHash] at h
      cases ss with
      | nil => simpa [hsub] using hm
      | cons s ss => cases h
  | cons a as ih =>
    cases ss with
    | nil => cases h
    | cons s ss =>
      rw [covers, Bool.and_eq_true, decide_eq_true_eq] at h
      obtain ⟨ha, hrest⟩ := h
      have hss' : [hash] ∉ ss := fun hmem => hss (List.mem_cons_of_mem s hmem)
      rw [List.cons_append] at hm ⊢
      generalize hl : ss ++ cutOff subHash = l at hm
      cases hm with
      | hash => exact absurd List.mem_cons_self hss
      | plus t hm =>
        have hrec := ih hss' hrest (hl ▸ hm)
        rcases ha with rfl | rfl
        · exact .plus t hrec
        · exact .plus t hrec
      | same t hm =>
        have hrec := ih hss' hrest (hl ▸ hm)
        rcases ha with rfl | rfl
        · exact .plus s hrec
        · exact .same a hrec

/-- A covered filter starts with `$` if the ACL does. -/
theorem covers_dollar {aclHash : Bool} {a s : Bytes}
    (h : covers aclHash (levels a) (levels s) = true) (ha : a.head? = some dollar) :
    s.head? = some dollar := by
  obtain ⟨l, hl⟩ := (head_levels dollar (by decide)).mpr ha
  obtain ⟨a0, as, has⟩ := List.exists_cons_of_ne_nil (levels_ne_nil a)
  obtain ⟨s0, ss, hss⟩ := List.exists_cons_of_ne_nil (levels_ne_nil s)
  rw [has, List.head?_cons, Option.some.injEq] at hl
  subst hl
  rw [has, hss, covers, Bool.and_eq_true, decide_eq_true_eq] at h
  rcases h.1 with hplus | rfl
  · exact absurd (List.cons_eq_cons.mp hplus).1 (by decide)
  · exact (head_levels dollar (by decide)).mp ⟨l, by rw [hss]; rfl⟩

theorem hashCheck_dollar (s : Bytes) :
    (hashCheck s).2.head? = some dollar ↔ s.head? = some dollar := by
  rcases hashCheck_cases s with ⟨rfl, hcut⟩ | ⟨s', rfl, hcut⟩ | ⟨-, -, hcut⟩
  · rw [hcut]
    decide
  · rw [hcut]
    cases s' with
    | nil => decide
    | cons b s' => exact Iff.rfl
  · rw [hcut]

/-- An empty ACL filter covers nothing. -/
theorem not_covers_nil {sub : Bytes} (hne : sub ≠ [])
    (himp : (hashCheck sub).1 = true → (hashCheck []).1 = true) :
    covers (hashCheck []).1 (levels (hashCheck []).2) (levels (hashCheck sub).2) = false := by
  have hempty : hashCheck [] = (false, []) := by decide
  rw [hempty] at himp ⊢
  rcases hashCheck_cases sub with ⟨-, hcut⟩ | ⟨s', -, hcut⟩ | ⟨-, -, hcut⟩
  · rw [hcut] at himp
    exact absurd (himp rfl) (by decide)
  · rw [hcut] at himp
    exact absurd (himp rfl) (by decide)
  · rw [hcut]
    obtain ⟨l, ls, hl⟩ := List.exists_cons_of_ne_nil (levels_ne_nil sub)
    rw [hl, levels_nil, covers]
    cases ls with
    | nil =>
      have hl0 : l ≠ [] := by
        rintro rfl
        exact hne (levels_inj hl)
      simp [hl0.symm]
    | cons l' ls => simp [covers]

theorem covers_hash {acl : Bytes} (hne : acl ≠ [hash]) (hhash : (hashCheck acl).1 = true)
    (h : covers (hashCheck acl).1 (levels (hashCheck acl).2) (levels []) = true) :
    acl = [plus, slash, hash] ∨ acl = [slash, hash] := by
  rcases hashCheck_cases acl with ⟨h, -⟩ | ⟨a, rfl, hcut⟩ | ⟨-, -, hcut⟩
  · exact absurd h hne
  · rw [hcut] at h
    obtain ⟨l, ls, hl⟩ := List.exists_cons_of_ne_nil (levels_ne_nil a)
    rw [hl, levels_nil, covers, Bool.and_eq_true, decide_eq_true_eq] at h
    obtain rfl : ls = [] := by
      have := (covers_length h.2).1
      exact List.length_eq_zero_iff.mp (Nat.le_zero.mp this)
    rcases h.1 with rfl | rfl
    · obtain rfl : a = [plus] := levels_inj hl
      exact .inl rfl
    · obtain rfl : a = [] := levels_inj hl
      exact .inr rfl
  · rw [hcut] at hhash
    cases hhash

/-- The matcher on checked strings, empty ones included. -/
theorem matches_iff {sub topic : Bytes} (hs : mosquittoSubTopicCheck sub = Rc.success)
    (ht : mosquittoPubTopicCheck topic = Rc.success) :
    (mosquittoTopicMatchesSub sub topic).2 = true ↔ (sub ≠ [] ∧ topic ≠ []) ∧
      dollarAgree sub topic ∧ LevelsMatch (levels sub) (levels topic) := by
  by_cases hne : sub = [] ∨ topic = []
  · unfold mosquittoTopicMatchesSub
    rw [if_pos hne]
    exact ⟨fun h => (nomatch h), fun h => absurd hne (not_or.mpr h.1)⟩
  · obtain ⟨hsub, htopic⟩ := not_or.mp hne
    rw [mosquittoTopicMatchesSub_eq hsub htopic hs ht]
    simp only [Bool.and_eq_true, decide_eq_true_eq, levelMatch_iff]
    exact ⟨fun h => ⟨⟨hsub, htopic⟩, h⟩, fun h => h.2⟩

/-- An ACL filter that passes the check matches what the subscription matches. -/
theorem subAclCheck_sound {acl sub topic : Bytes} (ha : mosquittoSubTopicCheck acl = Rc.success)
    (hs : mosquittoSubTopicCheck sub = Rc.success) (hd : sub.head? ≠ some dollar)
    (hpair : ¬ (acl = [slash, hash] ∧ sub = [hash])) (hcheck : subAclCheck acl sub = true)
    (hne : sub ≠ []) (hm : LevelsMatch (levels sub) (levels topic)) :
    acl ≠ [] ∧ acl.head? ≠ some dollar ∧ LevelsMatch (levels acl) (levels topic) := by
  rcases (subAclCheck_eq acl sub).mp hcheck with rfl | ⟨himp, hcov⟩
  · exact ⟨by decide, by decide, .hash _⟩
  by_cases hacl : acl = [hash]
  · subst hacl
    exact ⟨by decide, by decide, .hash _⟩
  by_cases hsub : sub = [hash]
  · subst hsub
    rcases covers_hash hacl (himp rfl) hcov with rfl | rfl
    · obtain ⟨t, ts, htopic⟩ := List.exists_cons_of_ne_nil (levels_ne_nil topic)
      rw [htopic]
      exact ⟨by decide, by decide, .plus t (.hash ts)⟩
    · exact absurd ⟨rfl, rfl⟩ hpair
  obtain ⟨hlacl, -⟩ := hashCheck_levels ha hacl
  obtain ⟨hlsub, hnohash⟩ := hashCheck_levels hs hsub
  refine ⟨?_, fun hacld => ?_, ?_⟩
  · rintro rfl
    rw [not_covers_nil hne himp] at hcov
    cases hcov
  · have hsubd := covers_dollar hcov ((hashCheck_dollar acl).mpr hacld)
    exact hd ((hashCheck_dollar sub).mp hsubd)
  · rw [hlacl]
    exact covers_sound hnohash himp hcov (hlsub ▸ hm)

/-- **The check is sound but for one pair of filters**: a subscription filter without `$`
that passes for an ACL filter matches only topics the ACL filter matches, unless it is `#`
and the ACL filter is `/#`. -/
theorem sub_acl_check_sound_iff {acl sub : Bytes} (ha : mosquittoSubTopicCheck acl = Rc.success)
    (hs : mosquittoSubTopicCheck sub = Rc.success) (hd : sub.head? ≠ some dollar) :
    (subAclCheck acl sub = true → ∀ topic, mosquittoPubTopicCheck topic = Rc.success →
      (mosquittoTopicMatchesSub sub topic).2 = true →
      (mosquittoTopicMatchesSub acl topic).2 = true) ↔
      ¬ (acl = ascii "/#" ∧ sub = ascii "#") := by
  constructor
  · rintro h ⟨rfl, rfl⟩
    exact absurd (h (by decide) (ascii "a") (by decide) (by decide)) (by decide)
  · intro hpair hcheck topic ht hm
    obtain ⟨⟨hne, htopic⟩, hagree, hlev⟩ := (matches_iff hs ht).mp hm
    obtain ⟨hacl, hacld, hlacl⟩ := subAclCheck_sound ha hs hd hpair hcheck hne hlev
    refine (matches_iff ha ht).mpr ⟨⟨hacl, htopic⟩, ?_, hlacl⟩
    exact ⟨fun h => absurd h hacld, fun h => absurd (hagree.mpr h) hd⟩

/-- The ACL `foo/+/#` covers the subscription `foo/bar/+`. -/
theorem sub_acl_check_sound_plus :
    subAclCheck (ascii "foo/+/#") (ascii "foo/bar/+") = true ∧
      ∀ topic, mosquittoPubTopicCheck topic = Rc.success →
        (mosquittoTopicMatchesSub (ascii "foo/bar/+") topic).2 = true →
        (mosquittoTopicMatchesSub (ascii "foo/+/#") topic).2 = true := by
  have hcheck : subAclCheck (ascii "foo/+/#") (ascii "foo/bar/+") = true := by decide
  exact ⟨hcheck, (sub_acl_check_sound_iff (by decide) (by decide) (by decide)).mpr
    (by decide) hcheck⟩

/-- The ACL `/#` passes for the subscription `#`, which matches `a`. -/
theorem sub_acl_check_unsound : ¬ ∀ acl sub : Bytes, mosquittoSubTopicCheck acl = Rc.success →
    mosquittoSubTopicCheck sub = Rc.success → sub.head? ≠ some dollar →
    subAclCheck acl sub = true → ∀ topic, mosquittoPubTopicCheck topic = Rc.success →
      (mosquittoTopicMatchesSub sub topic).2 = true →
      (mosquittoTopicMatchesSub acl topic).2 = true := by
  intro h
  exact absurd (h (ascii "/#") (ascii "#") (by decide) (by decide) (by decide) (by decide)
    (ascii "a") (by decide) (by decide)) (by decide)

end AdaptiveMqtt.Security
