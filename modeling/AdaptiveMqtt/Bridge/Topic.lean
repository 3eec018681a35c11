import AdaptiveMqtt.Topic.Match

/-!
# Topic mapping of a bridge

`bridge__add_topic` and `bridge__remap_topic_in` of `src/bridge_topic.c`, and the mapping that
`send__publish` does for a bridge (`Net.remap` of the message database).

A rule applies to the topics that match prefix and pattern together. The mapping takes the
prefix off as a string. The two disagree on a topic that matches as the parent of `#`: it does
not carry the prefix. And what is left of a topic may match no more, if nothing is put in the
place of the prefix.
-/

namespace AdaptiveMqtt.Bridge

open Topic

inductive BridgeDirection where
  | bdOut | bdIn | bdBoth
  deriving DecidableEq, Repr

structure BridgeTopic where
  topic : Option Bytes
  localPrefix : Option Bytes
  remotePrefix : Option Bytes
  localTopic : Bytes
  remoteTopic : Bytes
  direction : BridgeDirection
  qos : UInt8
  deriving DecidableEq, Repr

/-- `struct mosquitto__bridge`, as far as the mapping uses it. -/
structure BridgeTopics where
  topics : List BridgeTopic
  topicRemapping : Bool
  deriving DecidableEq, Repr

/-! ## Adding a rule -/

def bridgeCreateRemapTopic (pre topic : Option Bytes) : Bytes := pre.getD [] ++ topic.getD []

/-- `bridge__create_prefix`: the prefix is valid, alone and before the pattern. -/
def bridgeCreatePrefix (topic : Option Bytes) (pre : Bytes) : Except Rc Bytes :=
  if mosquittoPubTopicCheck pre ≠ Rc.success then .error Rc.inval
  else if mosquittoSubTopicCheck (pre ++ topic.getD []) ≠ Rc.success then .error Rc.inval
  else .ok pre

/-- A prefix of the new rule, if there is one. Every failure is reported as lack of memory. -/
def takePrefix (topic : Option Bytes) : Option Bytes → Except Rc (Option Bytes)
  | none => .ok none
  | some pre =>
    match bridgeCreatePrefix topic pre with
    | .error _ => .error Rc.nomem
    | .ok full => .ok (some full)

def emptyMarker : Bytes := [34, 34]

def patternOf (topic : Option Bytes) : Option Bytes := if topic = some emptyMarker then none else topic

def bridgeAddTopic (bridge : BridgeTopics) (topic : Option Bytes) (direction : BridgeDirection)
    (qos : UInt8) (localPrefix remotePrefix : Option Bytes) : Except Rc BridgeTopics :=
  let topic := patternOf topic
  if qos > 2 then .error Rc.inval
  else if localPrefix.any fun pre => mosquittoPubTopicCheck pre ≠ Rc.success then .error Rc.inval
  else if remotePrefix.any fun pre => mosquittoPubTopicCheck pre ≠ Rc.success then .error Rc.inval
  else if topic = none ∧ (localPrefix = none ∨ remotePrefix = none) then .error Rc.inval
  else
    match takePrefix topic localPrefix, takePrefix topic remotePrefix with
    | .error rc, _ => .error rc
    | .ok _, .error rc => .error rc
    | .ok localPrefix, .ok remotePrefix =>
      let cur : BridgeTopic :=
        { topic, localPrefix, remotePrefix, localTopic := bridgeCreateRemapTopic localPrefix topic
          remoteTopic := bridgeCreateRemapTopic remotePrefix topic, direction, qos }
      .ok { topics := bridge.topics ++ [cur]
            topicRemapping := bridge.topicRemapping || localPrefix.isSome || remotePrefix.isSome }

/-! ## Mapping -/

/-- Take a prefix off a topic that has it. -/
def removePrefix (pre : Option Bytes) (topic : Bytes) : Bytes :=
  match pre with
  | none => topic
  | some pre => if topic.take pre.length = pre then topic.drop pre.length else topic

def addPrefix (pre : Option Bytes) (topic : Bytes) : Bytes := pre.getD [] ++ topic

/-- The first rule for this direction whose full topic matches: the prefix `off` is removed
and `on` is added. `none` if there is no such rule. -/
def remapWith (direction : BridgeDirection) (full : BridgeTopic → Bytes)
    (off on : BridgeTopic → Option Bytes) : List BridgeTopic → Bytes → Option (Except Rc Bytes)
  | [], _ => none
  | cur :: rest, topic =>
    if (cur.direction = .bdBoth ∨ cur.direction = direction) ∧
        (cur.remotePrefix.isSome ∨ cur.localPrefix.isSome) then
      let r := mosquittoTopicMatchesSub (full cur) topic
      if r.1 ≠ Rc.success then some (.error r.1)
      else if r.2 then some (.ok (addPrefix (on cur) (removePrefix (off cur) topic)))
      else remapWith direction full off on rest topic
    else remapWith direction full off on rest topic

/-- The mapping of `send__publish`. -/
def remapTopicOut (bridge : BridgeTopics) (topic : Bytes) : Except Rc Bytes :=
  if bridge.topicRemapping then
    (remapWith .bdOut (·.localTopic) (·.localPrefix) (·.remotePrefix) bridge.topics topic).getD
      (.ok topic)
  else .ok topic

def bridgeRemapTopicIn (bridge : BridgeTopics) (topic : Bytes) : Except Rc Bytes :=
  if bridge.topicRemapping then
    (remapWith .bdIn (·.remoteTopic) (·.remotePrefix) (·.localPrefix) bridge.topics topic).getD
      (.ok topic)
  else .ok topic

/-! ## There and back -/

/-- When the mapping of a matching topic can be undone. There is no local prefix to put back;
or the topic carries it, and something stands before the rest on the other side, or the rest
is a topic that the pattern matches; or it does not carry it, and is a `$` topic of which
the other side keeps its hands off. -/
def Returns (localPrefix remotePrefix pattern topic : Bytes) : Prop :=
  localPrefix = [] ∨
    if localPrefix <+: topic then
      remotePrefix ≠ [] ∨ (topic.drop localPrefix.length ≠ [] ∧
        ((topic.drop localPrefix.length).head? = some dollar → pattern.head? = some dollar))
    else remotePrefix = [] ∧ topic.head? = some dollar

theorem removePrefix_eq (pre : Option Bytes) (topic : Bytes) :
    removePrefix pre topic =
      if pre.getD [] <+: topic then topic.drop (pre.getD []).length else topic := by
  cases pre with
  | none => simp [removePrefix]
  | some pre =>
    unfold removePrefix
    simp only [Option.getD_some, List.prefix_iff_eq_take, eq_comm]

section Rule

variable {l r p topic : Bytes}

/-- Behind prefixes on both sides, pattern and rest match as they do alone. -/
theorem matches_behind (hl : l.any isWildcard = false) (hok : FilterOk none (l ++ p))
    (htopic : topic.any isWildcard = false) (hne : l ≠ []) :
    mosquittoTopicMatchesSub (l ++ p) (l ++ topic) =
      (Rc.success, levelMatch (levels p) (levels topic)) := by
  have hwild : (l ++ topic).any isWildcard = false := by
    rw [List.any_append, hl, htopic]
    rfl
  have hagree : dollarAgree (l ++ p) (l ++ topic) := by
    obtain ⟨b, l, rfl⟩ := List.exists_cons_of_ne_nil hne
    exact Iff.rfl
  rw [topicMatches_levels (by simp [hne]) (by simp [hne]) hok hwild, levelMatch_append hl hok]
  simp [hagree]

/-- A pattern that matches from its first byte on starts as the topic does, or with a
wildcard. -/
theorem head_of_levelMatch (hp : p ≠ []) (htopic : topic ≠ [])
    (hmatch : levelMatch (levels p) (levels topic) = true) (hdollar : p.head? = some dollar) :
    topic.head? = some dollar := by
  obtain ⟨b, p, rfl⟩ := List.exists_cons_of_ne_nil hp
  obtain rfl : b = dollar := by simpa using hdollar
  by_contra hhead
  rw [levelMatch_mismatch (by decide) hhead fun h => absurd h htopic] at hmatch
  cases hmatch

theorem eq_nil_of_levelMatch (h : levelMatch (levels []) (levels topic) = true) : topic = [] := by
  obtain ⟨t, ts, ht⟩ := List.exists_cons_of_ne_nil (levels_ne_nil topic)
  rw [levels_nil, ht, levelMatch_cons (by decide), Bool.and_eq_true, decide_eq_true_eq,
    levelMatch_nil, List.isEmpty_iff] at h
  rcases h with ⟨hhead | hhead, hrest⟩
  · exact absurd hhead (by decide)
  · refine levels_inj ?_
    rw [ht, ← hhead, hrest]
    rfl

/-- What arrives on the way back, by the code of the match with the remote topic. -/
def back (l r p rest : Bytes) : Except Rc Bytes :=
  let m := mosquittoTopicMatchesSub (r ++ p) (r ++ rest)
  if m.1 ≠ Rc.success then .error m.1 else if m.2 then .ok (l ++ rest) else .ok (r ++ rest)

/-- A topic that carries the local prefix. -/
theorem back_carried {rest : Bytes} (hr : r.any isWildcard = false)
    (hrok : FilterOk none (r ++ p)) (hrest : rest.any isWildcard = false)
    (hmatch : levelMatch (levels p) (levels rest) = true) (hne : l ≠ []) :
    back l r p rest = .ok (l ++ rest) ↔
      r ≠ [] ∨ (rest ≠ [] ∧ (rest.head? = some dollar → p.head? = some dollar)) := by
  unfold back
  by_cases hr0 : r = []
  · subst hr0
    simp only [List.nil_append, ne_eq, not_true_eq_false, false_or]
    by_cases h0 : rest = []
    · subst h0
      have hempty : mosquittoTopicMatchesSub p [] = (Rc.inval, false) := by
        simp [mosquittoTopicMatchesSub]
      rw [hempty, if_pos (by decide)]
      simp
    · have hp : p ≠ [] := by
        rintro rfl
        exact h0 (eq_nil_of_levelMatch hmatch)
      rw [topicMatches_levels hp h0 hrok hrest, hmatch]
      have hagree : dollarAgree p rest ↔ (rest.head? = some dollar → p.head? = some dollar) :=
        ⟨fun h => h.mpr, fun h => ⟨head_of_levelMatch hp h0 hmatch, h⟩⟩
      by_cases hd : dollarAgree p rest
      · simp only [hd, h0, not_false_eq_true, true_and, iff_true_intro (hagree.mp hd)]
        simp
      · simp [hd, h0, ← hagree, hne]
  · rw [matches_behind hr hrok hrest hr0, hmatch]
    simp [hr0]

/-- A topic that matches without the local prefix. -/
theorem back_parent (hr : r.any isWildcard = false) (hrok : FilterOk none (r ++ [hash]))
    (htopic : topic.any isWildcard = false) (hne : topic ≠ []) (hl : l ≠ []) :
    back l r [hash] topic = .ok topic ↔ r = [] ∧ topic.head? = some dollar := by
  have hhash : ∀ ts, levelMatch (levels [hash]) ts = true := levelMatch_hash
  unfold back
  by_cases hr0 : r = []
  · subst hr0
    simp only [List.nil_append, true_and]
    have hok : FilterOk none [hash] := hrok
    rw [topicMatches_levels (by decide) hne hok htopic, hhash]
    have hagree : dollarAgree [hash] topic ↔ topic.head? ≠ some dollar := by
      have hno : ([hash] : Bytes).head? ≠ some dollar := by decide
      unfold dollarAgree
      rw [iff_false_left hno]
    by_cases hd : topic.head? = some dollar
    · simp [hagree, hd]
    · simp [hagree, hd, hl]
  · rw [matches_behind hr hrok htopic hr0, hhash]
    simp [hr0, hl]

theorem back_iff (hl : l.any isWildcard = false) (hr : r.any isWildcard = false)
    (hlok : FilterOk none (l ++ p)) (hrok : FilterOk none (r ++ p)) (hne : topic ≠ [])
    (htopic : topic.any isWildcard = false)
    (hmatch : mosquittoTopicMatchesSub (l ++ p) topic = (Rc.success, true)) :
    back l r p (if l <+: topic then topic.drop l.length else topic) = .ok topic ↔
      Returns l r p topic := by
  have hlp : l ++ p ≠ [] := by
    intro h
    have hcode := congrArg Prod.fst hmatch
    rw [h, mosquittoTopicMatchesSub, if_pos (.inl rfl)] at hcode
    exact absurd hcode (by decide)
  rw [topicMatches_levels hlp hne hlok htopic, Prod.mk.injEq, Bool.and_eq_true,
    decide_eq_true_eq] at hmatch
  obtain ⟨-, hagree, hmatch⟩ := hmatch
  unfold Returns
  by_cases hcarry : l <+: topic
  · rw [if_pos hcarry, if_pos hcarry]
    obtain ⟨rest, rfl⟩ := hcarry
    rw [List.drop_left]
    rw [List.any_append, Bool.or_eq_false_iff] at htopic
    rw [levelMatch_append hl hlok] at hmatch
    by_cases hl0 : l = []
    · subst hl0
      simp only [List.nil_append, true_or, iff_true]
      unfold back
      simp only [List.nil_append] at hne hlp hagree hlok ⊢
      by_cases hr0 : r = []
      · subst hr0
        rw [List.nil_append, List.nil_append, topicMatches_levels hlp hne hlok htopic.2, hmatch]
        simp
      · rw [matches_behind hr hrok htopic.2 hr0, hmatch]
        simp
    · rw [or_iff_right hl0]
      exact back_carried hr hrok htopic.2 hmatch hl0
  · rw [if_neg hcarry, if_neg hcarry]
    obtain ⟨hparent, rfl⟩ := parent_of_not_prefix hl hlok hcarry hmatch
    have hl0 : l ≠ [] := by simp [hparent]
    rw [or_iff_right hl0]
    exact back_parent hr hrok htopic hne hl0

end Rule

/-! ## A rule that was accepted -/

section Accepted

variable {pattern localPrefix remotePrefix : Option Bytes} {qos : UInt8} {bridge : BridgeTopics}

theorem takePrefix_ok {topic pre pre' : Option Bytes} (h : takePrefix topic pre = .ok pre') :
    pre' = pre ∧ ∀ s, pre = some s →
      s.any isWildcard = false ∧ FilterOk none (s ++ topic.getD []) := by
  cases pre with
  | none =>
    cases h
    exact ⟨rfl, nofun⟩
  | some s =>
    unfold takePrefix bridgeCreatePrefix at h
    by_cases hpub : mosquittoPubTopicCheck s = Rc.success
    · by_cases hsub : mosquittoSubTopicCheck (s ++ topic.getD []) = Rc.success
      · simp only [hpub, hsub, ne_eq, not_true_eq_false, if_false] at h
        cases h
        refine ⟨rfl, fun s' hs' => ?_⟩
        cases hs'
        exact ⟨mosquittoPubTopicCheck_ok hpub, (mosquittoSubTopicCheck_ok hsub).1⟩
      · simp only [hpub, hsub, ne_eq, not_true_eq_false, not_false_eq_true, if_true, if_false] at h
        cases h
    · simp only [hpub, ne_eq, not_false_eq_true, if_true] at h
      cases h

theorem of_bridgeAddTopic
    (h : bridgeAddTopic ⟨[], false⟩ pattern .bdBoth qos localPrefix remotePrefix = .ok bridge) :
    bridge = ⟨[⟨patternOf pattern, localPrefix, remotePrefix,
        localPrefix.getD [] ++ (patternOf pattern).getD [],
        remotePrefix.getD [] ++ (patternOf pattern).getD [], .bdBoth, qos⟩],
        localPrefix.isSome || remotePrefix.isSome⟩ ∧
      (∀ s, localPrefix = some s →
        s.any isWildcard = false ∧ FilterOk none (s ++ (patternOf pattern).getD [])) ∧
      ∀ s, remotePrefix = some s →
        s.any isWildcard = false ∧ FilterOk none (s ++ (patternOf pattern).getD []) := by
  unfold bridgeAddTopic at h
  simp only at h
  split at h
  · cases h
  split at h
  · cases h
  split at h
  · cases h
  split at h
  · cases h
  split at h
  · cases h
  · cases h
  · rename_i l r hl hr
    cases h
    obtain ⟨rfl, hlocal⟩ := takePrefix_ok hl
    obtain ⟨rfl, hremote⟩ := takePrefix_ok hr
    exact ⟨rfl, hlocal, hremote⟩

/-- A topic goes to the other broker and comes back. -/
def thereAndBack (bridge : BridgeTopics) (topic : Bytes) : Except Rc Bytes :=
  remapTopicOut bridge topic >>= bridgeRemapTopicIn bridge

theorem thereAndBack_eq {l r p : Option Bytes} {topic : Bytes} (hsome : l.isSome ∨ r.isSome)
    (hmatch : mosquittoTopicMatchesSub (l.getD [] ++ p.getD []) topic = (Rc.success, true)) :
    thereAndBack ⟨[⟨p, l, r, l.getD [] ++ p.getD [], r.getD [] ++ p.getD [], .bdBoth, qos⟩],
        l.isSome || r.isSome⟩ topic =
      back (l.getD []) (r.getD []) (p.getD [])
        (if l.getD [] <+: topic then topic.drop (l.getD []).length else topic) := by
  have hsome' : r.isSome = true ∨ l.isSome = true := hsome.symm
  have hremap : (l.isSome || r.isSome) = true := by rw [Bool.or_eq_true]; exact hsome
  unfold thereAndBack remapTopicOut
  simp only [hremap, if_true, remapWith, true_or, hsome', and_self, hmatch, ne_eq,
    not_true_eq_false, if_false, Option.getD_some, removePrefix_eq, addPrefix]
  generalize (if l.getD [] <+: topic then topic.drop (l.getD []).length else topic) = rest
  unfold bridgeRemapTopicIn back
  simp only [bind, Except.bind, if_true, remapWith, true_or, hsome', and_self, removePrefix_eq, addPrefix,
    List.prefix_append, List.drop_left]
  split
  · rfl
  · split <;> rfl

/-- **When a bridge gives a topic back**: for a rule of both directions that was accepted and a
topic that it matches, the mapping there and back gives the topic if and only if it
`Returns`. -/
theorem remap_round_trip_iff {topic : Bytes}
    (hadd : bridgeAddTopic ⟨[], false⟩ pattern .bdBoth qos localPrefix remotePrefix = .ok bridge)
    (hne : topic ≠ []) (hvalid : mosquittoPubTopicCheck topic = Rc.success)
    (hmatch : ∀ rule ∈ bridge.topics,
      mosquittoTopicMatchesSub rule.localTopic topic = (Rc.success, true)) :
    thereAndBack bridge topic = .ok topic ↔
      Returns (localPrefix.getD []) (remotePrefix.getD []) ((patternOf pattern).getD []) topic := by
  obtain ⟨rfl, hlocal, hremote⟩ := of_bridgeAddTopic hadd
  generalize patternOf pattern = p at *
  have hmatch' := hmatch _ List.mem_cons_self
  by_cases hsome : localPrefix.isSome = true ∨ remotePrefix.isSome = true
  · rw [thereAndBack_eq hsome hmatch']
    have hl : (localPrefix.getD []).any isWildcard = false := by
      cases localPrefix with
      | none => rfl
      | some s => exact (hlocal s rfl).1
    have hr : (remotePrefix.getD []).any isWildcard = false := by
      cases remotePrefix with
      | none => rfl
      | some s => exact (hremote s rfl).1
    -- a pattern is checked behind the prefix there is, and is then valid alone
    have hpattern : FilterOk none (p.getD []) := by
      cases localPrefix with
      | some s => exact (hlocal s rfl).2.rest
      | none =>
        cases remotePrefix with
        | some s => exact (hremote s rfl).2.rest
        | none => simp at hsome
    have hlok : FilterOk none (localPrefix.getD [] ++ p.getD []) := by
      cases localPrefix with
      | none => exact hpattern
      | some s => exact (hlocal s rfl).2
    have hrok : FilterOk none (remotePrefix.getD [] ++ p.getD []) := by
      cases remotePrefix with
      | none => exact hpattern
      | some s => exact (hremote s rfl).2
    exact back_iff hl hr hlok hrok hne (mosquittoPubTopicCheck_ok hvalid) hmatch'
  · obtain ⟨rfl, rfl⟩ : localPrefix = none ∧ remotePrefix = none := by
      cases localPrefix <;> cases remotePrefix <;> simp_all
    exact iff_of_true rfl (.inl rfl)

/-- The topic `L/a` of the local broker is `R/a` on the other side. -/
theorem remap_round_trip_pattern :
    ∃ bridge, bridgeAddTopic ⟨[], false⟩ (some (ascii "+")) .bdBoth 0 (some (ascii "L/"))
        (some (ascii "R/")) = .ok bridge ∧
      remapTopicOut bridge (ascii "L/a") = .ok (ascii "R/a") ∧
      thereAndBack bridge (ascii "L/a") = .ok (ascii "L/a") := by
  refine ⟨⟨[⟨some (ascii "+"), some (ascii "L/"), some (ascii "R/"), ascii "L/+", ascii "R/+",
    .bdBoth, 0⟩], true⟩, by decide, by decide, ?_⟩
  have hadd : bridgeAddTopic ⟨[], false⟩ (some (ascii "+")) .bdBoth 0 (some (ascii "L/"))
      (some (ascii "R/")) = .ok ⟨[⟨some (ascii "+"), some (ascii "L/"), some (ascii "R/"),
        ascii "L/+", ascii "R/+", .bdBoth, 0⟩], true⟩ := by decide
  exact (remap_round_trip_iff hadd (by decide) (by decide) (by decide)).mpr (.inr (by decide))

/-- **A topic comes back under another name**: `foo` matches `foo/#` without carrying the prefix
`foo/`, goes out as `bar/foo` and comes back as `foo/foo`. -/
theorem parent_comes_back_below :
    ∃ bridge, bridgeAddTopic ⟨[], false⟩ (some (ascii "#")) .bdBoth 0 (some (ascii "foo/"))
        (some (ascii "bar/")) = .ok bridge ∧
      (∀ rule ∈ bridge.topics,
        mosquittoTopicMatchesSub rule.localTopic (ascii "foo") = (Rc.success, true)) ∧
      mosquittoPubTopicCheck (ascii "foo") = Rc.success ∧
      remapTopicOut bridge (ascii "foo") = .ok (ascii "bar/foo") ∧
      thereAndBack bridge (ascii "foo") = .ok (ascii "foo/foo") ∧
      thereAndBack bridge (ascii "foo") ≠ .ok (ascii "foo") :=
  ⟨_, rfl, by decide, by decide, by decide, by decide, by decide⟩

end Accepted

end AdaptiveMqtt.Bridge
