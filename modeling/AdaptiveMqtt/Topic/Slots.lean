import AdaptiveMqtt.Topic.Levels
import AdaptiveMqtt.Lib.Word

/-!
# The array of tokens

`sub__topic_tokenise` of `src/topic_tok.c` with the array it fills: `count+3` slots, all `NULL`
at first, where `count` is an `int` that a loop of its own has counted. A slot that is not there
is out of bounds. The run writes and shifts within the array and leaves the tokens of
`subTopicTokenise` at its front (`tokeniseSlots_eq`).
-/

namespace AdaptiveMqtt.Topic

open Lib

/-! ## The source -/

/-- How a run ends without tokens. -/
inductive Halt where
  | undefined (fault : CInt.Fault)
  | outOfBounds
  | code (rc : Rc)
  deriving DecidableEq, Repr

/-- `topics`: pointers to tokens, or `NULL`. -/
abbrev Slots := List (Option Bytes)

/-- `strchr(&saveptr[1], '/')`, for `saveptr` at the start of the string. -/
def nextSlash (s : Bytes) : Option Bytes :=
  match s.tail.dropWhile (· ≠ slash) with
  | [] => none
  | rest => some rest

def increment (i : Int) : Except Halt Int :=
  match CInt.add i 1 with
  | .ok i => .ok i
  | .error fault => .error (.undefined fault)

/-- `while(saveptr)`, which counts. Every call of `strchr` shortens the string. -/
def countLoop : Nat → Int → Bytes → Except Halt Int
  | 0, count, _ => .ok count
  | fuel + 1, count, s => do
    let count ← increment count
    match nextSlash s with
    | none => .ok count
    | some s => countLoop fuel count s

/-- The size of the array: `count+3`. -/
def slotCount (count : Int) : Except Halt Int :=
  match CInt.add count 3 with
  | .ok n => .ok n
  | .error fault => .error (.undefined fault)

/-- `topics[i] = token`. -/
def setSlot (topics : Slots) (i : Int) (token : Option Bytes) : Except Halt Slots :=
  if 0 ≤ i ∧ i < topics.length then .ok (topics.set i.toNat token) else .error .outOfBounds

/-- `topics[i]`. -/
def getSlot (topics : Slots) (i : Int) : Except Halt (Option Bytes) :=
  if 0 ≤ i ∧ i < topics.length then .ok (topics.getD i.toNat none) else .error .outOfBounds

/-- `while(token)`, which fills the slots from `topic_index` on. -/
def fillLoop : Nat → Slots → Int → Bytes → Except Halt Slots
  | 0, topics, _, _ => .ok topics
  | fuel + 1, topics, topicIndex, s =>
    match strtokHier s with
    | (token, rest) => do
      let topics ← setSlot topics topicIndex (some token)
      let topicIndex ← increment topicIndex
      match rest with
      | none => .ok topics
      | some rest => fillLoop fuel topics topicIndex rest

/-- `for(i=1; i<count-1; i++)`, with the turns left. -/
def shiftLoop : Nat → Int → Slots → Except Halt Slots
  | 0, _, topics => .ok topics
  | left + 1, i, topics => do
    let token ← getSlot topics (i + 1)
    let topics ← setSlot topics i token
    shiftLoop left (i + 1) topics

def shareSlots (count : Int) (topics : Slots) : Except Halt (Slots × Option Bytes) :=
  if count < 2 then .error (.code Rc.protocol)
  else do
    let sharename ← getSlot topics 1
    let topics ← shiftLoop (count - 2).toNat 1 topics
    let topics ← setSlot topics 0 (some [])
    let topics ← setSlot topics (count - 1) none
    .ok (topics, sharename)

/-- The tokens from `topic_index` on, after an empty one for a string that does not start with
`$`. -/
def fillSlots (subtopic : Bytes) (topics : Slots) : Except Halt Slots :=
  if subtopic.head? = some dollar then fillLoop (subtopic.length + 1) topics 0 subtopic
  else do
    let topics ← setSlot topics 0 (some [])
    fillLoop (subtopic.length + 1) topics 1 subtopic

/-- `sub__topic_tokenise`: the array and the share name. -/
def tokeniseSlots (subtopic : Bytes) : Except Halt (Slots × Option Bytes) :=
  if subtopic = [] then .error (.code Rc.inval)
  else do
    let count ← countLoop (subtopic.length + 1) 0 subtopic
    let n ← slotCount count
    let topics ← fillSlots subtopic (List.replicate n.toNat none)
    let first ← getSlot topics 0
    if first = some (ascii "$share") then shareSlots count topics else .ok (topics, none)

/-- The tokens before the terminating `NULL`, if it is there. -/
def readSlots : Slots → Option (List Bytes)
  | [] => none
  | none :: _ => some []
  | some token :: topics => (token :: ·) <$> readSlots topics

theorem ok_bind {ε α β : Type} (a : α) (f : α → Except ε β) : (Except.ok a >>= f) = f a := rfl

/-! ## Counting -/

section Count

variable {c : Nat} {s : Bytes}

theorem increment_fits (h : c + 1 < 2 ^ 31) : increment c = .ok ((c + 1 : Nat) : Int) := by
  rw [increment, CInt.add, CInt.ret_of_fits ⟨by omega, by omega⟩]
  rfl

theorem increment_overflows (h : 2 ^ 31 ≤ c + 1) : increment c = .error (.undefined .overflow) := by
  rw [increment, CInt.add, CInt.ret_of_not_fits fun hfits => by obtain ⟨-, hhi⟩ := hfits; omega]

theorem slotCount_fits (h : c + 3 < 2 ^ 31) : slotCount c = .ok ((c + 3 : Nat) : Int) := by
  rw [slotCount, CInt.add, CInt.ret_of_fits ⟨by omega, by omega⟩]
  rfl

theorem slotCount_overflows (h : 2 ^ 31 ≤ c + 3) :
    slotCount c = .error (.undefined .overflow) := by
  rw [slotCount, CInt.add, CInt.ret_of_not_fits fun hfits => by obtain ⟨-, hhi⟩ := hfits; omega]

theorem nextSlash_spec (s : Bytes) : (nextSlash s = none ∧ tokenCount s = 1) ∨
    ∃ t, nextSlash s = some (slash :: t) ∧ tokenCount s = tokenCount (slash :: t) + 1 ∧
      t.length + 1 < s.length := by
  have hsplit := List.takeWhile_append_dropWhile (p := (· ≠ slash)) (l := s.tail)
  have hcount := congrArg (List.count slash) hsplit
  have hlen := congrArg List.length hsplit
  rw [List.count_append, List.count_eq_zero_of_not_mem (slash_notMem_takeWhile s.tail),
    Nat.zero_add] at hcount
  rw [List.length_append, List.length_tail] at hlen
  unfold nextSlash tokenCount
  rw [List.drop_one]
  cases hd : s.tail.dropWhile (· ≠ slash) with
  | nil =>
    rw [hd] at hcount
    exact .inl ⟨rfl, by rw [← hcount]; rfl⟩
  | cons a t =>
    have ha : a = slash := by
      have hne : s.tail.dropWhile (· ≠ slash) ≠ [] := by rw [hd]; simp
      have hhead := List.head_dropWhile_not (· ≠ slash) hne
      simp only [hd, List.head_cons] at hhead
      simpa using hhead
    subst ha
    rw [hd, List.length_cons] at hlen
    rw [hd, List.count_cons_self] at hcount
    refine .inr ⟨t, rfl, ?_, by omega⟩
    rw [← hcount]
    rfl

theorem countLoop_eq : ∀ {fuel c : Nat} {s : Bytes}, s.length < fuel →
    countLoop fuel c s = if c + tokenCount s < 2 ^ 31 then .ok ((c + tokenCount s : Nat) : Int)
      else .error (.undefined .overflow)
  | 0, _, _, h => absurd h (Nat.not_lt_zero _)
  | fuel + 1, c, s, h => by
    rw [countLoop]
    by_cases hc : c + 1 < 2 ^ 31
    · rw [increment_fits hc]
      show (match nextSlash s with
        | none => Except.ok ((c + 1 : Nat) : Int)
        | some s => countLoop fuel ((c + 1 : Nat) : Int) s) = _
      rcases nextSlash_spec s with ⟨hnext, hone⟩ | ⟨t, hnext, hmore, hlen⟩
      · rw [hnext, hone, if_pos hc]
      · have hfuel : (slash :: t).length < fuel := by rw [List.length_cons]; omega
        rw [hnext, hmore]
        simp only
        rw [countLoop_eq hfuel, Nat.add_assoc, Nat.add_comm 1]
    · have hpos : 1 ≤ tokenCount s := Nat.le_add_left 1 _
      rw [increment_overflows (by omega), if_neg (by omega)]
      rfl

end Count

/-! ## Filling -/

section Fill

variable {pre post : Slots} {x : Option Bytes}

theorem setSlot_eq (pre : Slots) (x : Option Bytes) (post : Slots) (token : Option Bytes) :
    setSlot (pre ++ x :: post) pre.length token = .ok (pre ++ token :: post) := by
  rw [setSlot, if_pos ⟨by omega, by rw [List.length_append, List.length_cons]; omega⟩,
    Int.toNat_natCast, List.set_append_right _ _ (Nat.le_refl _), Nat.sub_self, List.set_cons_zero]

theorem getSlot_eq (pre : Slots) (x : Option Bytes) (post : Slots) :
    getSlot (pre ++ x :: post) pre.length = .ok x := by
  rw [getSlot, if_pos ⟨by omega, by rw [List.length_append, List.length_cons]; omega⟩,
    Int.toNat_natCast, List.getD_eq_getElem?_getD, List.getElem?_append_right (Nat.le_refl _),
    Nat.sub_self]
  rfl

/-- The tokens so far, and the slots that are free. -/
def slots (tokens : List Bytes) (free : Nat) : Slots :=
  tokens.map some ++ List.replicate free none

theorem setSlot_slots (tokens : List Bytes) (token : Bytes) (free : Nat) :
    setSlot (slots tokens (free + 1)) tokens.length (some token) =
      .ok (slots (tokens ++ [token]) free) := by
  have hset := setSlot_eq (tokens.map some) none (List.replicate free none) (some token)
  rw [List.length_map] at hset
  rw [slots, List.replicate_succ, hset, slots, List.map_append, List.append_assoc]
  rfl

theorem fillLoop_eq : ∀ {fuel : Nat} {s : Bytes} {tokens : List Bytes} {free : Nat},
    s.length < fuel → tokens.length + (levels s).length < 2 ^ 31 →
    fillLoop fuel (slots tokens (free + (levels s).length)) tokens.length s =
      .ok (slots (tokens ++ levels s) free)
  | 0, _, _, _, h, _ => absurd h (Nat.not_lt_zero _)
  | fuel + 1, s, tokens, free, h, hmax => by
    rw [fillLoop]
    rcases strtokHier_spec s with ⟨htok, hlev⟩ | ⟨token, rest, htok, hlev, hrest⟩
    · have hinc : increment tokens.length = .ok ((tokens.length + 1 : Nat) : Int) :=
        increment_fits (by rw [hlev] at hmax; exact hmax)
      rw [htok, hlev, List.length_singleton]
      show (setSlot (slots tokens (free + 1)) tokens.length (some s) >>= fun topics =>
        increment tokens.length >>= fun _ => Except.ok topics) = _
      rw [setSlot_slots, hinc]
      rfl
    · rw [hlev, List.length_cons] at hmax
      have hinc : increment tokens.length = .ok ((tokens.length + 1 : Nat) : Int) :=
        increment_fits (by omega)
      have hlen : (tokens ++ [token]).length = tokens.length + 1 := by
        rw [List.length_append, List.length_singleton]
      have hrun := @fillLoop_eq fuel rest (tokens ++ [token]) free (by omega) (by omega)
      rw [hlen, List.append_assoc, List.singleton_append] at hrun
      rw [htok, hlev, List.length_cons, ← Nat.add_assoc]
      show (setSlot (slots tokens (free + (levels rest).length + 1)) tokens.length (some token) >>=
        fun topics => increment tokens.length >>= fun i => fillLoop fuel topics i rest) = _
      rw [setSlot_slots, hinc]
      exact hrun

theorem shiftLoop_eq : ∀ (mid : Slots) (pre : Slots) (x : Option Bytes) (post : Slots),
    shiftLoop mid.length pre.length (pre ++ x :: (mid ++ post)) =
      .ok (pre ++ (mid ++ mid.getLastD x :: post))
  | [], pre, x, post => rfl
  | y :: mid, pre, x, post => by
    have hget : getSlot (pre ++ x :: (y :: mid ++ post)) ((pre.length : Int) + 1) = .ok y := by
      have h := getSlot_eq (pre ++ [x]) y (mid ++ post)
      rw [List.length_append, List.length_singleton, List.append_assoc, List.singleton_append] at h
      exact h
    have hset := setSlot_eq pre x (y :: mid ++ post) y
    have hrun := shiftLoop_eq mid (pre ++ [y]) y post
    rw [List.length_append, List.length_singleton, List.append_assoc, List.append_assoc,
      List.singleton_append, List.singleton_append] at hrun
    rw [List.length_cons, shiftLoop, hget]
    show (setSlot (pre ++ x :: (y :: mid ++ post)) pre.length y >>= fun topics =>
      shiftLoop mid.length ((pre.length : Int) + 1) topics) = _
    rw [hset]
    refine Eq.trans hrun ?_
    rw [List.getLastD_cons]
    rfl

theorem readSlots_slots (tokens : List Bytes) (free : Nat) :
    readSlots (slots tokens (free + 1)) = some tokens := by
  induction tokens with
  | nil => rfl
  | cons token tokens ih =>
    show (token :: ·) <$> readSlots (slots tokens (free + 1)) = _
    rw [ih]
    rfl

theorem length_slots (tokens : List Bytes) (free : Nat) :
    (slots tokens free).length = tokens.length + free := by
  rw [slots, List.length_append, List.length_map, List.length_replicate]

end Fill

/-! ## The run -/

section Run

variable {s : Bytes}

theorem tokens_le (s : Bytes) : (tokens s).length ≤ tokenCount s + 2 := by
  unfold tokens tokenCount
  cases s with
  | nil => simp
  | cons b s =>
    rw [List.drop_succ_cons, List.drop_zero]
    split
    · rename_i hd
      obtain rfl : b = dollar := by simpa using hd
      rw [length_levels, List.count_cons_of_ne (by decide)]
      omega
    · have hcount : (b :: s).count slash ≤ s.count slash + 1 := by
        rw [List.count_cons]
        split <;> omega
      rw [List.length_cons, length_levels]
      omega

theorem fillSlots_eq {n : Nat} (hn : (tokens s).length ≤ n) (hmax : n < 2 ^ 31) :
    fillSlots s (slots [] n) = .ok (slots (tokens s) (n - (tokens s).length)) := by
  unfold fillSlots
  unfold tokens at hn ⊢
  by_cases hd : s.head? = some dollar
  · rw [if_pos hd] at hn ⊢
    rw [if_pos hd]
    have hfill := @fillLoop_eq (s.length + 1) s [] (n - (levels s).length) (Nat.lt_succ_self _)
      (by rw [List.length_nil]; omega)
    rw [Nat.sub_add_cancel hn] at hfill
    exact hfill
  · rw [if_neg hd] at hn ⊢
    rw [if_neg hd]
    rw [List.length_cons] at hn
    have hfill := @fillLoop_eq (s.length + 1) s [[]] (n - (levels s).length - 1)
      (Nat.lt_succ_self _) (by rw [List.length_singleton]; omega)
    have hset := setSlot_slots [] [] (n - 1)
    rw [Nat.sub_add_cancel (by omega)] at hset
    show (setSlot (slots [] n) ((0 : Nat) : Int) (some []) >>= fun topics =>
      fillLoop (s.length + 1) topics 1 s) = _
    rw [List.length_nil] at hset
    rw [hset]
    rw [show n - (levels s).length - 1 + (levels s).length = n - 1 by omega] at hfill
    rw [List.length_cons, ← Nat.sub_sub]
    exact hfill

/-- The shift leaves the levels after the share name. -/
theorem shareSlots_eq (share group : Bytes) (rest : List Bytes) (free : Nat) :
    shareSlots ((rest.length + 2 : Nat) : Int) (slots (share :: group :: rest) free) =
      .ok (slots ([] :: rest) (free + 1), some group) := by
  have hget := getSlot_eq [some share] (some group) (rest.map some ++ List.replicate free none)
  have hshift := shiftLoop_eq (rest.map some) [some share] (some group) (List.replicate free none)
  rw [List.length_map] at hshift
  have hfirst := setSlot_eq [] (some share)
    (rest.map some ++ (rest.map some).getLastD (some group) :: List.replicate free none) (some [])
  have hlast := setSlot_eq (some [] :: rest.map some) ((rest.map some).getLastD (some group))
    (List.replicate free none) none
  rw [List.length_cons, List.length_map] at hlast
  have hleft : (((rest.length + 2 : Nat) : Int) - 2).toNat = rest.length := by omega
  have hend : ((rest.length + 2 : Nat) : Int) - 1 = ((rest.length + 1 : Nat) : Int) := by omega
  rw [shareSlots, if_neg (by omega), hleft, hend]
  show (getSlot ([some share] ++ some group :: (rest.map some ++ List.replicate free none))
      (([some share] : Slots).length : Int) >>= fun sharename =>
    shiftLoop rest.length (([some share] : Slots).length : Int)
      ([some share] ++ some group :: (rest.map some ++ List.replicate free none)) >>= fun topics =>
    setSlot topics ((([] : Slots).length : Nat) : Int) (some []) >>= fun topics =>
    setSlot topics ((rest.length + 1 : Nat) : Int) none >>= fun topics =>
    Except.ok (topics, sharename)) = _
  rw [hget, hshift]
  show (setSlot ([] ++ some share :: (rest.map some ++
      (rest.map some).getLastD (some group) :: List.replicate free none))
      ((([] : Slots).length : Nat) : Int) (some []) >>= fun topics =>
    setSlot topics ((rest.length + 1 : Nat) : Int) none >>= fun topics =>
    Except.ok (topics, some group)) = _
  rw [hfirst]
  show (setSlot (some [] :: rest.map some ++
      (rest.map some).getLastD (some group) :: List.replicate free none)
      ((rest.length + 1 : Nat) : Int) none >>= fun topics => Except.ok (topics, some group)) = _
  rw [hlast]
  rfl

def tokenised (size : Nat) :
    Except Rc (List Bytes × Option Bytes) → Except Halt (Slots × Option Bytes)
  | .ok (topics, share) => .ok (slots topics (size - topics.length), share)
  | .error rc => .error (.code rc)

theorem firstSlot_eq (s : Bytes) (free : Nat) :
    ∃ k, getSlot (slots (tokens s) free) 0 = .ok (some k) ∧
      (k = ascii "$share" ↔ (levels s).head? = some (ascii "$share")) := by
  obtain ⟨k, rest, hk, hfirst⟩ := head_tokens s
  refine ⟨k, ?_, ?_⟩
  · rw [hk]
    exact getSlot_eq [] (some k) (rest.map some ++ List.replicate free none)
  · have hdollar : (levels s).head? = some (ascii "$share") → s.head? = some dollar := fun h =>
      (head_levels dollar (by decide)).mp ⟨_, by rw [h, ascii_share]⟩
    by_cases hd : s.head? = some dollar
    · rw [tokens, if_pos hd] at hk
      rw [hk, List.head?_cons, Option.some.injEq]
    · rw [if_neg hd] at hfirst
      rw [hfirst]
      exact ⟨fun h => absurd h (by decide), fun h => absurd (hdollar h) hd⟩

/-- The end of the run. -/
theorem finish_eq (hs : s ≠ []) :
    (getSlot (slots (tokens s) (tokenCount s + 3 - (tokens s).length)) 0 >>= fun first =>
      if first = some (ascii "$share") then shareSlots (tokenCount s)
        (slots (tokens s) (tokenCount s + 3 - (tokens s).length))
      else .ok (slots (tokens s) (tokenCount s + 3 - (tokens s).length), none)) =
      tokenised (tokenCount s + 3) (subTopicTokenise s) := by
  obtain ⟨k, hget, hk⟩ := firstSlot_eq s (tokenCount s + 3 - (tokens s).length)
  rw [hget, subTopicTokenise_eq hs]
  show (if some k = some (ascii "$share") then _ else _) = _
  by_cases hshare : (levels s).head? = some (ascii "$share")
  · have hd : s.head? = some dollar :=
      (head_levels dollar (by decide)).mp ⟨_, by rw [hshare, ascii_share]⟩
    rw [if_pos (congrArg some (hk.mpr hshare)), if_pos hshare, tokens, if_pos hd,
      tokenCount_of_dollar hd]
    rcases hl : levels s with _ | ⟨share, _ | ⟨group, rest⟩⟩
    · exact absurd hl (levels_ne_nil s)
    · rfl
    · rw [List.length_cons, List.length_cons]
      have hfree : rest.length + 1 + 1 + 3 - (rest.length + 1 + 1) = 3 := by omega
      have hfree' : rest.length + 1 + 1 + 3 - (([] : Bytes) :: rest).length = 4 := by
        rw [List.length_cons]
        omega
      rw [hfree, shareTokens, tokenised, hfree']
      exact shareSlots_eq share group rest 3
  · rw [if_neg (fun h => hshare (hk.mp (Option.some.inj h))), if_neg hshare]
    rfl

/-- **The array holds the tokens**, unless the number of slots overflows. -/
theorem tokeniseSlots_eq (hs : s ≠ []) : tokeniseSlots s =
    if tokenCount s + 3 < 2 ^ 31 then tokenised (tokenCount s + 3) (subTopicTokenise s)
    else .error (.undefined .overflow) := by
  have hcount := @countLoop_eq (s.length + 1) 0 s (Nat.lt_succ_self _)
  rw [Nat.zero_add] at hcount
  have hrun : tokeniseSlots s = (countLoop (s.length + 1) ((0 : Nat) : Int) s >>= fun count =>
      slotCount count >>= fun n => fillSlots s (List.replicate n.toNat none) >>= fun topics =>
      getSlot topics 0 >>= fun first =>
      if first = some (ascii "$share") then shareSlots count topics else .ok (topics, none)) :=
    if_neg hs
  rw [hrun, hcount]
  by_cases hmax : tokenCount s + 3 < 2 ^ 31
  · have hle := tokens_le s
    have hfill := @fillSlots_eq s (tokenCount s + 3) (by omega) hmax
    rw [if_pos (by omega), if_pos hmax, ← finish_eq hs]
    rw [ok_bind, slotCount_fits hmax, ok_bind]
    have hempty : List.replicate ((tokenCount s + 3 : Nat) : Int).toNat none =
        slots [] (tokenCount s + 3) := rfl
    rw [hempty, hfill, ok_bind]
  · rw [if_neg hmax]
    by_cases hone : tokenCount s < 2 ^ 31
    · rw [if_pos hone]
      rw [ok_bind, slotCount_overflows (by omega)]
      rfl
    · rw [if_neg hone]
      rfl

end Run

/-! ## The tokens -/

/-- The tokens of a string are its levels, and they fit in the array. -/
structure TokensExact (s : Bytes) : Prop where
  plain : (levels s).head? ≠ some (ascii "$share") → ∃ topics,
    tokeniseSlots s = .ok (topics, none) ∧
    readSlots topics = some (if s.head? = some dollar then levels s else [] :: levels s)
  joined : [slash].intercalate (levels s) = s
  shared : ∀ group rest, slash ∉ group →
    s = ascii "$share" ++ slash :: (group ++ slash :: rest) → ∃ topics,
      tokeniseSlots s = .ok (topics, some group) ∧ readSlots topics = some ([] :: levels rest)
  fits : ∀ topics share, tokeniseSlots s = .ok (topics, share) →
    topics.length = tokenCount s + 3 ∧ ∃ tokens, readSlots topics = some tokens
  fails : ∀ halt, tokeniseSlots s = .error halt → ∃ rc, halt = .code rc

section Exact

variable {s : Bytes}

/-- All tokens that are found leave a slot for the `NULL`. -/
theorem tokenised_fits {topics : List Bytes} {share : Option Bytes}
    (h : subTopicTokenise s = .ok (topics, share)) : topics.length < tokenCount s + 3 := by
  have hs : s ≠ [] := by rintro rfl; simp [subTopicTokenise] at h
  have hle := tokens_le s
  rw [subTopicTokenise_eq hs] at h
  split at h
  · rename_i hshare
    have hd : s.head? = some dollar :=
      (head_levels dollar (by decide)).mp ⟨_, by rw [hshare, ascii_share]⟩
    have hcount := tokenCount_of_dollar hd
    rcases hl : levels s with _ | ⟨a, _ | ⟨group, rest⟩⟩ <;>
      simp only [hl, shareTokens, reduceCtorEq, Except.ok.injEq, Prod.mk.injEq] at h
    rw [hl, List.length_cons, List.length_cons] at hcount
    rw [← h.1, List.length_cons]
    omega
  · simp only [Except.ok.injEq, Prod.mk.injEq] at h
    rw [← h.1]
    omega

theorem readSlots_tokenised {topics : List Bytes} {size : Nat} (h : topics.length < size) :
    readSlots (slots topics (size - topics.length)) = some topics ∧
      (slots topics (size - topics.length)).length = size := by
  obtain ⟨k, hk⟩ : ∃ k, size - topics.length = k + 1 := ⟨size - topics.length - 1, by omega⟩
  refine ⟨by rw [hk, readSlots_slots], ?_⟩
  rw [length_slots]
  omega

theorem levels_shared {group rest : Bytes} (h : slash ∉ group) :
    levels (ascii "$share" ++ slash :: (group ++ slash :: rest)) =
      ascii "$share" :: group :: levels rest := by
  rw [levels_append_slash (by decide), levels_append_slash h]

theorem tokensExact_of_fits (hs : s ≠ []) (hmax : tokenCount s + 3 < 2 ^ 31) : TokensExact s := by
  have hrun := tokeniseSlots_eq hs
  rw [if_pos hmax] at hrun
  have hok : ∀ {topics share}, subTopicTokenise s = .ok (topics, share) →
      ∃ a, tokeniseSlots s = .ok (a, share) ∧ readSlots a = some topics ∧
        a.length = tokenCount s + 3 := by
    intro topics share h
    have hread := readSlots_tokenised (tokenised_fits h)
    rw [h] at hrun
    exact ⟨_, hrun, hread⟩
  refine ⟨fun hplain => ?_, List.intercalate_splitOn slash, fun group rest hgroup heq => ?_,
    fun topics share h => ?_, fun halt h => ?_⟩
  · have htok := subTopicTokenise_eq hs
    rw [if_neg hplain] at htok
    obtain ⟨a, ha, hread, -⟩ := hok htok
    exact ⟨a, ha, hread⟩
  · have hlev := @levels_shared group rest hgroup
    have htok := subTopicTokenise_eq hs
    rw [heq, hlev, List.head?_cons, if_pos rfl, ← heq] at htok
    obtain ⟨a, ha, hread, -⟩ := hok htok
    exact ⟨a, ha, hread⟩
  · cases htok : subTopicTokenise s with
    | error rc =>
      rw [htok, h] at hrun
      cases hrun
    | ok r =>
      obtain ⟨a, ha, hread, hlen⟩ := hok htok
      rw [h] at ha
      cases ha
      exact ⟨hlen, _, hread⟩
  · cases htok : subTopicTokenise s with
    | error rc =>
      rw [htok, h] at hrun
      exact ⟨rc, Except.error.inj hrun⟩
    | ok r =>
      obtain ⟨a, ha, -⟩ := hok htok
      rw [h] at ha
      cases ha

theorem not_tokensExact (hs : s ≠ []) (hmax : ¬ tokenCount s + 3 < 2 ^ 31) : ¬ TokensExact s := by
  intro h
  have hrun := tokeniseSlots_eq hs
  rw [if_neg hmax] at hrun
  obtain ⟨rc, hrc⟩ := h.fails _ hrun
  cases hrc

/-- **The tokens are the levels**, as long as the number of slots is an `int`: with at most
2^31 - 5 slashes after the first byte. -/
theorem tokens_exact_iff (hs : s ≠ []) :
    TokensExact s ↔ (s.drop 1).count slash ≤ 2 ^ 31 - 5 := by
  have hcount : tokenCount s + 3 < 2 ^ 31 ↔ (s.drop 1).count slash ≤ 2 ^ 31 - 5 := by
    unfold tokenCount
    omega
  rw [← hcount]
  exact ⟨fun h => not_not.mp fun hmax => not_tokensExact hs hmax h, tokensExact_of_fits hs⟩

theorem tokens_exact_shared : TokensExact (ascii "$share/g//a/") :=
  (tokens_exact_iff (by decide)).mpr (by decide)

/-- 2^31 slashes have more levels than an `int` counts. -/
theorem slashes_overflow : ¬ TokensExact (List.replicate (2 ^ 31) slash) := by
  have hne : List.replicate (2 ^ 31) slash ≠ [] := by
    rw [Ne, List.replicate_eq_nil_iff]
    omega
  refine not_tokensExact hne ?_
  rw [tokenCount, List.drop_replicate, List.count_replicate_self]
  omega

example : (tokeniseSlots (ascii "a//")).toOption =
    some ([some [], some [97], some [], some [], none, none], none) := by decide

end Exact

end AdaptiveMqtt.Topic
