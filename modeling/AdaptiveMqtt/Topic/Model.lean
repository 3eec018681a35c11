import AdaptiveMqtt.Basic

/-!
# Topics and filters

`src/topic_tok.c` and `lib/util_topic.c`: cutting a topic or a filter into its
`/`-separated levels, checking that it is well formed, and matching a filter
against a topic character by character. Every loop of the source is a recursion
over the bytes still to be read; the end of the list stands for the NUL.
-/

namespace AdaptiveMqtt.Topic

def topicHierarchyLimit : Nat := 200

def isWildcard (b : UInt8) : Bool := b == plus || b == hash

/-! ## Tokenising -/

/-- `strtok_hier`: the next token and the new `saveptr` (`none` is `NULL`). -/
def strtokHier (s : Bytes) : Bytes × Option Bytes :=
  match s.dropWhile (· ≠ slash) with
  | [] => (s, none)
  | _ :: rest => (s.takeWhile (· ≠ slash), some rest)

/-- The tokens the `while(token)` loop of `sub__topic_tokenise` collects. Each
call shortens the string, so its length bounds the number of calls. -/
def strtokLoop : Nat → Bytes → List Bytes
  | 0, _ => []
  | fuel + 1, s =>
    match strtokHier s with
    | (token, none) => [token]
    | (token, some rest) => token :: strtokLoop fuel rest

/-- `count` in `sub__topic_tokenise`: the `strchr` loop starts at index 1, so a
leading `/` is not counted. -/
def tokenCount (s : Bytes) : Nat := (s.drop 1).count slash + 1

/-- `sub__topic_tokenise`: the `NULL`-terminated array `topics` and the share
name, or the code it fails with. -/
def subTopicTokenise (subtopic : Bytes) : Except Rc (List Bytes × Option Bytes) :=
  if subtopic = [] then .error Rc.inval
  else
    let count := tokenCount subtopic
    let tokens := strtokLoop (subtopic.length + 1) subtopic
    let topics := if subtopic.head? = some dollar then tokens else [] :: tokens
    if topics.head? = some (ascii "$share") then
      if count < 2 then .error Rc.protocol
      -- topics[i] = topics[i+1] for i in 1..count-2, topics[0] = "", NULL at count-1
      else .ok ([] :: (topics.drop 2).take (count - 2), topics[1]?)
    else .ok (topics, none)

/-! ## Checks -/

/-- The loop of `mosquitto_pub_topic_check`: `len` and `hier_count` at the end,
or `none` for a `+` or `#`. -/
def pubTopicLoop : Nat → Nat → Bytes → Option (Nat × Nat)
  | len, hier, [] => some (len, hier)
  | len, hier, b :: str =>
    if isWildcard b then none
    else pubTopicLoop (len + 1) (if b = slash then hier + 1 else hier) str

def mosquittoPubTopicCheck (str : Bytes) : Rc :=
  match pubTopicLoop 0 0 str with
  | none => Rc.inval
  | some (len, hier) =>
    if len > 65535 then Rc.inval
    else if hier > topicHierarchyLimit then Rc.inval
    else Rc.success

/-- The wildcard test of `mosquitto_sub_topic_check` on byte `b` with previous
character `c` and the rest `str`: the byte may not stand there. -/
def misplaced (c : Option UInt8) (b : UInt8) (str : Bytes) : Bool :=
  if b = plus then (c ≠ none ∧ c ≠ some slash) ∨ (str ≠ [] ∧ str.head? ≠ some slash)
  else b = hash ∧ ((c ≠ none ∧ c ≠ some slash) ∨ str ≠ [])

/-- The loop of `mosquitto_sub_topic_check`; `c` is the previous character. -/
def subTopicLoop : Option UInt8 → Nat → Nat → Bytes → Option (Nat × Nat)
  | _, len, hier, [] => some (len, hier)
  | c, len, hier, b :: str =>
    if misplaced c b str then none
    else subTopicLoop (some b) (len + 1) (if b = slash then hier + 1 else hier) str

def mosquittoSubTopicCheck (str : Bytes) : Rc :=
  match subTopicLoop none 0 0 str with
  | none => Rc.inval
  | some (len, hier) =>
    if len > 65535 then Rc.inval
    else if hier > topicHierarchyLimit then Rc.inval
    else Rc.success

/-! ## Matching -/

/-- `while(topic[0] != 0 && topic[0] != '/')`: the rest of the topic after the
level, or `none` for a wildcard in it. -/
def skipLevel : Bytes → Option Bytes
  | [] => some []
  | b :: topic =>
    if b = slash then some (b :: topic)
    else if isWildcard b then none
    else skipLevel topic

/-- The scan of the filter after a mismatch: a `#` that is not its last byte. -/
def hashInside : Bytes → Bool
  | [] => false
  | b :: sub => (b == hash && !sub.isEmpty) || hashInside sub

/-- The loop of `mosquitto_topic_matches_sub2`. `prev` is `sub[-1]` (`none` while
`spos == 0`); the result is the return code and `*result`. -/
def topicMatchesLoop (prev : Option UInt8) : Bytes → Bytes → Rc × Bool
  | [], topic => (if topic.any isWildcard then Rc.inval else Rc.success, false)
  | s :: sub, topic =>
    if topic.head?.any isWildcard then (Rc.inval, false)
    else if topic.head? ≠ some s then
      if s = plus then
        if prev ≠ none ∧ prev ≠ some slash then (Rc.inval, false)
        else if sub ≠ [] ∧ sub.head? ≠ some slash then (Rc.inval, false)
        else
          match skipLevel topic with
          | none => (Rc.inval, false)
          | some topic' =>
            if topic' = [] ∧ sub = [] then (Rc.success, true)
            else topicMatchesLoop (some s) sub topic'
      else if s = hash then
        if prev ≠ none ∧ prev ≠ some slash then (Rc.inval, false)
        else if sub ≠ [] then (Rc.inval, false)
        else if topic.any isWildcard then (Rc.inval, false)
        else (Rc.success, true)
      -- foo/bar matching foo/+/#
      else if topic = [] ∧ prev = some plus ∧ s = slash ∧ sub.head? = some hash then
        (Rc.success, true)
      else if hashInside (s :: sub) then (Rc.inval, false)
      else (Rc.success, false)
    else
      let topic' := topic.tail
      -- foo matching foo/#
      if topic' = [] ∧ sub = [slash, hash] then (Rc.success, true)
      else if sub = [] ∧ topic' = [] then (Rc.success, true)
      else if topic' = [] ∧ sub = [plus] then
        if s ≠ slash then (Rc.inval, false) else (Rc.success, true)
      else topicMatchesLoop (some s) sub topic'

def mosquittoTopicMatchesSub (sub topic : Bytes) : Rc × Bool :=
  if sub = [] ∨ topic = [] then (Rc.inval, false)
  else if (sub.head? = some dollar ∧ topic.head? ≠ some dollar) ∨
      (topic.head? = some dollar ∧ sub.head? ≠ some dollar) then (Rc.success, false)
  else topicMatchesLoop none sub topic

end AdaptiveMqtt.Topic
