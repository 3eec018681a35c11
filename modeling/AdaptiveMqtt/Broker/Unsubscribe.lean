import AdaptiveMqtt.Broker.Grammar
import AdaptiveMqtt.Sub.Clean

/-!
# UNSUBSCRIBE against SUBSCRIBE

`handle__unsubscribe` is to give up the listed filters that the access control permits, and to
answer each with the code for what was there. It does not put the mount point of the listener
before a filter, as `handle__subscribe` does; and its variable `reason` lives as long as the
packet, while `sub__remove` writes it only if the root of the filter exists.

What the loop does to the subscriptions of a client is a loop over a set of filters (`sentCodes`),
and so is what it should do (`dueCodes`).
-/

namespace AdaptiveMqtt.Broker

open Lib Topic AdaptiveMqtt.Sub Db

/-! ## Filters -/

section Filters

variable (permitted rooted : Bytes → Bool) (mount : Bytes)

/-- Give up one filter, if permitted. -/
def giveUp (sub : Bytes) (held : Bytes → Bool) : Bytes → Bool :=
  if permitted sub then fun s => held s && decide (s ≠ mount ++ sub) else held

/-- Give up the filters of a packet. -/
def giveUpAll (subs : List Bytes) (held : Bytes → Bool) : Bytes → Bool :=
  subs.foldl (fun held sub => giveUp permitted mount sub held) held

/-- The code for a filter: not authorised, success, or no subscription existed. -/
def dueCode (sub : Bytes) (held : Bytes → Bool) : UInt8 :=
  if permitted sub then if held (mount ++ sub) then 0 else 0x11 else 0x87

def dueCodes : List Bytes → (Bytes → Bool) → Bytes
  | [], _ => []
  | sub :: subs, held =>
    dueCode permitted mount sub held :: dueCodes subs (giveUp permitted mount sub held)

/-- The code `handle__unsubscribe` sends, with what `reason` was before. -/
def sentCode (reason : UInt8) (sub : Bytes) (held : Bytes → Bool) : UInt8 :=
  if permitted sub then if rooted sub then if held sub then 0 else 0x11 else reason else 0x87

def sentCodes : UInt8 → List Bytes → (Bytes → Bool) → Bytes
  | _, [], _ => []
  | reason, sub :: subs, held =>
    let reason := sentCode permitted rooted reason sub held
    reason :: sentCodes reason subs (giveUp permitted [] sub held)

/-- A permitted filter without a root comes right after one for which no subscription
existed. -/
def Followed : UInt8 → List Bytes → (Bytes → Bool) → Prop
  | _, [], _ => True
  | before, sub :: subs, held =>
    (permitted sub = true → rooted sub = false → before = 0x11) ∧
      Followed (dueCode permitted mount sub held) subs (giveUp permitted mount sub held)

variable {permitted rooted mount} {held held' : Bytes → Bool} {subs : List Bytes}

theorem giveUp_le {sub s : Bytes} (h : giveUp permitted mount sub held s = true) :
    held s = true := by
  unfold giveUp at h
  split at h
  · exact (Bool.and_eq_true_iff.mp h).1
  · exact h

theorem giveUp_of_ne {sub s : Bytes} (h : s ≠ mount ++ sub) :
    giveUp permitted mount sub held s = held s := by
  unfold giveUp
  split
  · show (held s && decide (s ≠ mount ++ sub)) = held s
    rw [decide_eq_true h, Bool.and_true]
  · rfl

theorem giveUpAll_eq_true {s : Bytes} : giveUpAll permitted mount subs held s = true ↔
    held s = true ∧ ∀ sub ∈ subs, permitted sub = true → s ≠ mount ++ sub := by
  induction subs generalizing held with
  | nil => simp [giveUpAll]
  | cons sub subs ih =>
    show giveUpAll permitted mount subs (giveUp permitted mount sub held) s = true ↔ _
    rw [ih, List.forall_mem_cons]
    unfold giveUp
    split
    · rename_i hp
      rw [Bool.and_eq_true_iff, decide_eq_true_iff, and_assoc]
      exact and_congr_right fun _ => and_congr_left fun _ => ⟨fun h _ => h, fun h => h hp⟩
    · rename_i hp
      exact and_congr_right fun _ => ⟨fun h => ⟨fun h' => absurd h' hp, h⟩, fun h => h.2⟩

/-- Both say the same of the listed filters, so the codes differ by the roots alone. -/
theorem sentCodes_eq_iff {reason : UInt8} (hroot : ∀ s, held s = true → rooted s = true)
    (hagree : ∀ sub ∈ subs, permitted sub = true → held sub = held' (mount ++ sub)) :
    sentCodes permitted rooted reason subs held = dueCodes permitted mount subs held' ↔
      Followed permitted rooted mount reason subs held' := by
  induction subs generalizing reason held held' with
  | nil => exact ⟨fun _ => trivial, fun _ => rfl⟩
  | cons sub subs ih =>
    rw [List.forall_mem_cons] at hagree
    have hhead : sentCode permitted rooted reason sub held = dueCode permitted mount sub held' ↔
        (permitted sub = true → rooted sub = false → reason = 0x11) := by
      unfold sentCode dueCode
      by_cases hp : permitted sub = true
      · rw [if_pos hp, if_pos hp, ← hagree.1 hp]
        by_cases hr : rooted sub = true
        · simp [hr]
        · have hno : held sub = false := by
            rw [← Bool.not_eq_true]
            exact fun h => hr (hroot sub h)
          simp [hr, hno, hp]
      · simp [hp]
    have htail : sentCodes permitted rooted (dueCode permitted mount sub held') subs
          (giveUp permitted [] sub held) =
        dueCodes permitted mount subs (giveUp permitted mount sub held') ↔
          Followed permitted rooted mount (dueCode permitted mount sub held') subs
            (giveUp permitted mount sub held') := by
      refine ih (fun s h => hroot s (giveUp_le h)) fun s hs hp => ?_
      by_cases hsub : s = sub
      · subst hsub
        unfold giveUp
        rw [if_pos hp, if_pos hp]
        simp
      · rw [giveUp_of_ne (by simpa using hsub), giveUp_of_ne (by simpa using hsub)]
        exact hagree.2 s hs hp
    show sentCode _ _ _ _ _ :: sentCodes _ _ _ _ _ = dueCode _ _ _ _ :: dueCodes _ _ _ _ ↔ _ ∧ _
    rw [List.cons.injEq, hhead]
    refine and_congr_right fun h => ?_
    rw [hhead.mpr h]
    exact htail

/-- A listed filter is answered with success at its first place only if it is due. -/
theorem due_of_held {reason : UInt8} (hroot : ∀ s, held s = true → rooted s = true)
    (heq : sentCodes permitted rooted reason subs held = dueCodes permitted mount subs held')
    {sub : Bytes} (hsub : sub ∈ subs) (hp : permitted sub = true) (hheld : held sub = true) :
    held' (mount ++ sub) = true := by
  induction subs generalizing reason held held' with
  | nil => cases hsub
  | cons s subs ih =>
    obtain ⟨hhead, htail⟩ := List.cons.inj heq
    by_cases hs : sub = s
    · subst hs
      unfold sentCode dueCode at hhead
      rw [if_pos hp, if_pos hp, if_pos (hroot _ hheld), if_pos hheld] at hhead
      by_contra hno
      rw [if_neg hno] at hhead
      exact absurd hhead (by decide)
    · have hmem := (List.mem_cons.mp hsub).resolve_left hs
      refine giveUp_le (ih (fun t h => hroot t (giveUp_le h)) htail hmem ?_)
      rwa [giveUp_of_ne (by simpa using hs)]

/-- With a mount point and everything as it should be, the packet lists no subscription: each one
would stand below another of the list. -/
theorem none_held (hmount : mount ≠ []) (hroot : ∀ s, held s = true → rooted s = true)
    (hsets : giveUpAll permitted [] subs held = giveUpAll permitted mount subs held)
    (hcodes : sentCodes permitted rooted 0 subs held = dueCodes permitted mount subs held) :
    ∀ sub ∈ subs, permitted sub = true → held (mount ++ sub) = false ∧ held sub = false := by
  -- a subscription that goes must be listed, or it stays after all
  have hlisted : ∀ sub ∈ subs, permitted sub = true → held (mount ++ sub) = true →
      mount ++ sub ∈ subs ∧ permitted (mount ++ sub) = true := by
    intro sub hsub hp hheld
    by_contra hno
    have hstays : giveUpAll permitted [] subs held (mount ++ sub) = true := by
      refine giveUpAll_eq_true.mpr ⟨hheld, fun t ht hpt heq => hno ?_⟩
      rw [List.nil_append] at heq
      rw [heq]
      exact ⟨ht, hpt⟩
    rw [hsets] at hstays
    exact (giveUpAll_eq_true.mp hstays).2 sub hsub hp rfl
  have hnot : ∀ sub ∈ subs, permitted sub = true → held sub ≠ true := by
    intro sub hsub hp hheld
    have hchain : ∀ k : Nat, ∃ s ∈ subs, permitted s = true ∧ held s = true ∧ k ≤ s.length := by
      intro k
      induction k with
      | zero => exact ⟨sub, hsub, hp, hheld, Nat.zero_le _⟩
      | succ k ih =>
        obtain ⟨s, hs, hps, hhs, hk⟩ := ih
        have hdue := due_of_held hroot hcodes hs hps hhs
        obtain ⟨hmem, hpm⟩ := hlisted s hs hps hdue
        refine ⟨mount ++ s, hmem, hpm, hdue, ?_⟩
        have hpos := List.length_pos_of_ne_nil hmount
        rw [List.length_append]
        omega
    obtain ⟨s, hs, -, -, hk⟩ := hchain (subs.flatten.length + 1)
    have hle := (List.sublist_flatten_of_mem hs).length_le
    omega
  intro sub hsub hp
  rw [← Bool.not_eq_true, ← Bool.not_eq_true]
  refine ⟨fun hheld => ?_, hnot sub hsub hp⟩
  obtain ⟨hmem, hpm⟩ := hlisted sub hsub hp hheld
  exact hnot _ hmem hpm hheld

/-- The loop does what it should, for this set of filters. -/
theorem undone_iff (hroot : ∀ s, held s = true → rooted s = true) :
    (giveUpAll permitted [] subs held = giveUpAll permitted mount subs held ∧
      sentCodes permitted rooted 0 subs held = dueCodes permitted mount subs held) ↔
    (mount = [] ∨ ∀ sub ∈ subs, permitted sub = true →
      held (mount ++ sub) = false ∧ held sub = false) ∧
    Followed permitted rooted mount 0 subs held := by
  by_cases hmount : mount = []
  · subst hmount
    rw [sentCodes_eq_iff hroot fun _ _ _ => rfl]
    exact ⟨fun h => ⟨.inl rfl, h.2⟩, fun h => ⟨rfl, h.2⟩⟩
  have hagree : (∀ sub ∈ subs, permitted sub = true →
      held (mount ++ sub) = false ∧ held sub = false) →
      ∀ sub ∈ subs, permitted sub = true → held sub = held (mount ++ sub) := by
    intro hnone sub hsub hp
    obtain ⟨h, h'⟩ := hnone sub hsub hp
    rw [h, h']
  constructor
  · rintro ⟨hsets, hcodes⟩
    have hnone := none_held hmount hroot hsets hcodes
    exact ⟨.inr hnone, (sentCodes_eq_iff hroot (hagree hnone)).mp hcodes⟩
  · rintro ⟨hnone, hfollowed⟩
    have hnone := hnone.resolve_left hmount
    refine ⟨?_, (sentCodes_eq_iff hroot (hagree hnone)).mpr hfollowed⟩
    funext s
    rw [Bool.eq_iff_iff, giveUpAll_eq_true, giveUpAll_eq_true]
    refine and_congr_right fun hs => iff_of_true ?_ ?_
    · rintro sub hsub hp rfl
      exact absurd hs (by rw [(hnone _ hsub hp).2]; decide)
    · rintro sub hsub hp rfl
      exact absurd hs (by rw [(hnone sub hsub hp).1]; decide)

end Filters

/-! ## What `sub__remove` answers -/

section Remove

variable {c : CtxId} {share : Option Bytes} {p q : Path} {st : SubSt} {topics : List Bytes}

theorem subRemoveAt_reason (hp : st.tree.has p) (reason : UInt8) :
    (subRemoveAt c share p reason st).2.1 =
      if holds c (st.tree.leaves p share) then 0 else reason := by
  obtain ⟨h, hg⟩ := SubTree.has_iff.mp hp
  rw [SubTree.leaves_of_get hg share]
  cases share with
  | none =>
    show (subRemoveNormal c p reason st).2.1 = _
    unfold subRemoveNormal
    rw [hg]
    simp only
    split
    · rename_i hh
      exact (if_pos hh).symm
    · rename_i hh
      exact (if_neg hh).symm
  | some name =>
    show (subRemoveShared c p reason name st).2.1 = _
    unfold subRemoveShared
    rw [hg]
    simp only
    cases hf : h.findShared name with
    | none => simp [SubHier.leaves, hf]
    | some g =>
      have hleaves : h.leaves (some name) = g.subs := by simp [SubHier.leaves, hf]
      rw [hleaves]
      simp only
      split <;> rfl

theorem subRemoveRecurse_reason (hok : st.tree.Ok) (hp : st.tree.has p) (reason : UInt8) :
    (subRemoveRecurse c share topics p reason st).2.1 =
      if holds c (st.tree.leaves (p ++ topics) share) then 0 else reason := by
  induction topics generalizing p with
  | nil =>
    have hat : subRemoveRecurse c share [] p reason st = subRemoveAt c share p reason st := by
      unfold subRemoveRecurse subRemoveAt
      cases share <;> rfl
    rw [hat, List.append_nil, subRemoveAt_reason hp]
  | cons topic topics ih =>
    have hassoc : p ++ topic :: topics = p ++ [topic] ++ topics := by simp
    rw [subRemoveRecurse]
    cases hb : st.tree.nodes.get (p ++ [topic]) with
    | none =>
      have hnot : ¬ st.tree.has (p ++ [topic]) := Option.not_isSome_iff_eq_none.mpr hb
      have hnil : st.tree.leaves (p ++ topic :: topics) share = [] := by
        refine SubTree.leaves_of_not_has (fun h => hnot ?_) share
        rw [hassoc] at h
        exact hok.has_above (by simp) h
      rw [hnil]
      rfl
    | some h =>
      rw [hassoc, ← ih (SubTree.has_iff.mpr ⟨h, hb⟩)]

/-- Nodes no deeper than the one the recursion starts from stay. -/
theorem has_subRemoveRecurse (hok : st.tree.Ok) (hp : st.tree.has p) (reason : UInt8)
    (hq : st.tree.has q) (hlen : q.length ≤ p.length) :
    (subRemoveRecurse c share topics p reason st).2.2.tree.has q := by
  induction topics generalizing p with
  | nil =>
    have hat : subRemoveRecurse c share [] p reason st = subRemoveAt c share p reason st := by
      unfold subRemoveRecurse subRemoveAt
      cases share <;> rfl
    rw [hat]
    exact ((subRemoveAt_spec c share hok hp reason).1.has_iff q).mpr hq
  | cons topic topics ih =>
    rw [subRemoveRecurse]
    cases hb : st.tree.nodes.get (p ++ [topic]) with
    | none => exact hq
    | some h =>
      have hbr : st.tree.has (p ++ [topic]) := SubTree.has_iff.mpr ⟨h, hb⟩
      have hdeeper : q.length < (p ++ [topic]).length := by
        rw [List.length_append, List.length_singleton]
        omega
      have hq1 := ih hbr (Nat.le_of_lt hdeeper)
      obtain ⟨hok1, hhas1, -⟩ := subRemoveRecurse_spec c share topics reason hok hbr
      simp only
      split
      · rename_i hbare
        have hB := (SubTree.isBare_iff hok1 hhas1).mp hbare
        refine ((SubTree.delNode_spec hok1 hB hhas1).2.1 q).mpr ⟨?_, hq1⟩
        rintro rfl
        omega
      · exact hq1

/-- **What `sub__remove` answers**: `reason` is written only if the root of the filter exists. -/
theorem subRemove_reason {sub : Bytes} (hok : st.tree.Ok)
    (htok : subTopicTokenise sub = .ok (topics, share)) (reason : UInt8) :
    (subRemove c sub reason st).2.1 =
      if (st.tree.nodes.get [topics.headD []]).isSome then
        if holds c (st.tree.leaves (nodeOf topics) share) then 0 else 0x11
      else reason := by
  unfold subRemove
  rw [htok]
  simp only
  cases hr : st.tree.nodes.get [topics.headD []] with
  | none => rfl
  | some h => exact subRemoveRecurse_reason hok (SubTree.has_iff.mpr ⟨h, hr⟩) 0x11

theorem subRemove_rc {sub : Bytes} (htok : subTopicTokenise sub = .ok (topics, share))
    (hne : topics ≠ []) (reason : UInt8) : (subRemove c sub reason st).1 = Rc.success := by
  obtain ⟨topic, topics, rfl⟩ := List.exists_cons_of_ne_nil hne
  unfold subRemove
  rw [htok]
  simp only
  split
  · rfl
  · unfold subRemoveRecurse
    simp only
    split <;> rfl

/-- A root stays for good. -/
theorem has_subRemove {sub : Bytes} (hok : st.tree.Ok)
    (htok : subTopicTokenise sub = .ok (topics, share)) (reason : UInt8) (root : Bytes) :
    (subRemove c sub reason st).2.2.tree.has [root] ↔ st.tree.has [root] := by
  constructor
  · exact (subRemove_spec c reason st hok htok).2.1 [root]
  · intro h
    unfold subRemove
    rw [htok]
    simp only
    split
    · exact h
    · rename_i h' hr
      exact has_subRemoveRecurse hok (SubTree.has_iff.mpr ⟨h', hr⟩) 0x11 h (Nat.le_refl 1)

end Remove

/-! ## The subscriptions of a client -/

/-- The client has a subscription for this filter. -/
def State.subscribed (c : CtxId) (b : State) (sub : Bytes) : Bool :=
  match subTopicTokenise sub with
  | .ok (topics, share) => holds c (b.subs.tree.leaves (nodeOf topics) share)
  | .error _ => false

def State.rooted (b : State) (sub : Bytes) : Bool :=
  match subTopicTokenise sub with
  | .ok (topics, _) => (b.subs.tree.nodes.get [topics.headD []]).isSome
  | .error _ => false

section Step

variable {c : CtxId} {b : State} {sub : Bytes} {topics : List Bytes} {share : Option Bytes}

theorem rooted_of_subscribed (hok : b.subs.tree.Ok) (h : b.subscribed c sub = true) :
    b.rooted sub = true := by
  unfold State.subscribed at h
  unfold State.rooted
  cases htok : subTopicTokenise sub with
  | error rc =>
    rw [htok] at h
    cases h
  | ok r =>
    obtain ⟨topics, share⟩ := r
    rw [htok] at h
    obtain ⟨leaf, hleaf, -⟩ := List.any_eq_true.mp h
    have hnode := SubTree.has_of_leaves (List.ne_nil_of_mem hleaf)
    exact hok.has_above (List.cons_ne_nil _ []) hnode

/-- **One filter given up**: the client has no subscription for it, and all others as before. -/
theorem subRemove_step (hok : b.subs.tree.Ok) (htok : subTopicTokenise sub = .ok (topics, share))
    (hne : topics ≠ []) (reason : UInt8) :
    (b.subRemove c sub reason).1 = Rc.success ∧
    (b.subRemove c sub reason).2.1 =
      (if b.rooted sub then if b.subscribed c sub then 0 else 0x11 else reason) ∧
    (b.subRemove c sub reason).2.2.subs.tree.Ok ∧
    (∀ s, (b.subRemove c sub reason).2.2.subscribed c s =
      (b.subscribed c s && decide (s ≠ sub))) ∧
    (b.subRemove c sub reason).2.2.rooted = b.rooted := by
  obtain ⟨hok', -, hleaves, -⟩ := subRemove_spec c reason ⟨b.subs.tree, b.subs.subs c⟩ hok htok
  refine ⟨subRemove_rc htok hne reason, ?_, hok', fun s => ?_, ?_⟩
  · unfold State.rooted State.subscribed
    rw [htok]
    exact subRemove_reason hok htok reason
  · unfold State.subscribed
    cases hs : subTopicTokenise s with
    | error rc => rfl
    | ok r =>
      obtain ⟨topics', share'⟩ := r
      simp only
      show holds c ((subRemove c sub reason ⟨b.subs.tree, b.subs.subs c⟩).2.2.tree.leaves
        (nodeOf topics') share') = _
      rw [hleaves]
      by_cases heq : s = sub
      · subst heq
        obtain ⟨rfl, rfl⟩ := Prod.mk.inj (Except.ok.inj (hs.symm.trans htok))
        rw [if_pos ⟨rfl, rfl⟩, Bool.eq_iff_iff, holds_without (hok.once _ _)]
        simp
      · have hother : ¬ (nodeOf topics' = nodeOf topics ∧ share' = share) := by
          rintro ⟨hnode, rfl⟩
          obtain rfl : topics' = topics := (List.cons.inj hnode).2
          exact heq (subTopicTokenise_inj hs htok)
        rw [if_neg hother, decide_eq_true heq, Bool.and_true]
  · funext s
    unfold State.rooted
    cases hs : subTopicTokenise s with
    | error rc => rfl
    | ok r =>
      rw [Bool.eq_iff_iff]
      exact has_subRemove hok htok reason (r.1.headD [])

theorem topics_ne_nil (htok : subTopicTokenise sub = .ok (topics, share)) : topics ≠ [] := by
  have hs : sub ≠ [] := by
    rintro rfl
    cases htok
  rw [subTopicTokenise_eq hs] at htok
  split at htok
  · unfold shareTokens at htok
    split at htok
    · cases htok
      exact List.cons_ne_nil _ _
    · cases htok
  · cases htok
    exact tokens_ne_nil sub

end Step

/-! ## The loop -/

/-- The access control permits giving up this filter. -/
def permits (env : Env) (ctx : Context) (sub : Bytes) : Bool :=
  mosquittoAclCheck env ctx sub [] .q0 false .unsubscribe = Rc.success

/-- A filter that `handle__unsubscribe` does not refuse: it is checked, a shared one names its
group, and the access control has no error. -/
structure Listed (env : Env) (ctx : Context) (sub : Bytes) : Prop where
  check : mosquittoSubTopicCheck sub = Rc.success
  tokens : ∃ r, subTopicTokenise sub = .ok r
  acl : permits env ctx sub = true ∨
    mosquittoAclCheck env ctx sub [] .q0 false .unsubscribe = Rc.aclDenied

section Loop

variable {env : Env} {c : CtxId} {ctx : Context}

theorem undisturbed_setMode (c : CtxId) (mode : TransferMode) (b : State) :
    Undisturbed b (b.modifyClient c (·.setMode mode)) := by
  refine ⟨fun d => ?_, rfl⟩
  unfold State.modifyClient
  simp only
  rw [Heap.get_modify]
  split
  · rename_i hd
    rw [Option.map_map, hd]
    refine congrFun (congrArg Option.map (funext fun ctx => ?_)) _
    show (ctx.setMode mode).incoming = _
    unfold Context.setMode
    split <;> rfl
  · rfl

/-- **The loop of `handle__unsubscribe`** on the subscriptions of its client. -/
theorem unsubscribeLoop_spec {subs : List Bytes} (hlisted : ∀ sub ∈ subs, Listed env ctx sub) :
    ∀ {filters : List SubscribeFilter} {reason : UInt8} {codes : Bytes} {b : State},
      filters.map (·.sub) = subs.map .ok → b.subs.tree.Ok →
      ∃ b', unsubscribeLoop env c ctx filters reason codes b =
          (.ok (codes ++ sentCodes (permits env ctx) b.rooted reason subs (b.subscribed c)), b') ∧
        b'.subscribed c = giveUpAll (permits env ctx) [] subs (b.subscribed c) ∧
        Undisturbed b b' := by
  induction subs with
  | nil =>
    intro filters reason codes b hf _
    obtain rfl : filters = [] := List.map_eq_nil_iff.mp hf
    exact ⟨b, by rw [sentCodes, List.append_nil]; rfl, rfl, .refl b⟩
  | cons sub subs ih =>
    intro filters reason codes b hf hok
    rw [List.forall_mem_cons] at hlisted
    obtain ⟨f, filters, rfl, hsub, hf⟩ := List.map_eq_cons_iff.mp hf
    obtain ⟨hcheck, ⟨⟨topics, share⟩, htok⟩, hacl⟩ := hlisted.1
    have hne : sub ≠ [] := by
      rintro rfl
      cases htok
    unfold unsubscribeLoop
    rw [hsub]
    simp only
    rw [if_neg (not_or.mpr ⟨hne, not_not.mpr hcheck⟩)]
    -- ending slow mode leaves the tree alone
    obtain ⟨b₁, hb₁, hsubs, hquiet⟩ : ∃ b₁ : State, (if sub = ascii "latency" then
        b.modifyClient c (·.setMode .normalMode) else b) = b₁ ∧ b₁.subs = b.subs ∧
        Undisturbed b b₁ := by
      split
      · exact ⟨_, rfl, rfl, undisturbed_setMode c _ b⟩
      · exact ⟨b, rfl, rfl, .refl b⟩
    have hsubscribed : b₁.subscribed c = b.subscribed c := by
      unfold State.subscribed
      rw [hsubs]
    have hrooted : b₁.rooted = b.rooted := by
      unfold State.rooted
      rw [hsubs]
    rw [hb₁]
    by_cases hp : permits env ctx sub = true
    · have hrc : mosquittoAclCheck env ctx sub [] .q0 false .unsubscribe = Rc.success :=
        of_decide_eq_true hp
      obtain ⟨hrc', hreason, hok', hheld, hroots⟩ := @subRemove_step c b₁ sub topics share
        (by rw [hsubs]; exact hok) htok (topics_ne_nil htok) reason
      rw [if_neg fun h => h.1 hrc, if_pos hrc, if_neg (not_not.mpr hrc')]
      obtain ⟨b', hloop, hfinal, hquiet'⟩ := @ih hlisted.2 filters (b₁.subRemove c sub reason).2.1
        (codes ++ [(b₁.subRemove c sub reason).2.1]) (b₁.subRemove c sub reason).2.2 hf hok'
      have hgive : (b₁.subRemove c sub reason).2.2.subscribed c =
          giveUp (permits env ctx) [] sub (b.subscribed c) := by
        funext s
        rw [hheld, hsubscribed, giveUp, if_pos hp]
        rfl
      rw [hgive] at hfinal hloop
      rw [hrooted, hsubscribed] at hreason
      rw [hroots, hrooted, hreason] at hloop
      refine ⟨b', ?_, hfinal, hquiet.trans (Undisturbed.trans ⟨fun _ => rfl, rfl⟩ hquiet')⟩
      rw [hreason, hloop, List.append_assoc, sentCodes, sentCode, if_pos hp]
      rfl
    · have hrc := hacl.resolve_left hp
      have hrc' : ¬ mosquittoAclCheck env ctx sub [] .q0 false .unsubscribe = Rc.success := fun h =>
        hp (decide_eq_true h)
      rw [if_neg fun h => h.2 hrc, if_neg hrc', if_neg (not_not.mpr rfl)]
      obtain ⟨b', hloop, hfinal, hquiet'⟩ := @ih hlisted.2 filters 0x87 (codes ++ [0x87]) b₁ hf
        (by rw [hsubs]; exact hok)
      have hgive : giveUp (permits env ctx) [] sub (b.subscribed c) = b.subscribed c := by
        rw [giveUp, if_neg hp]
      rw [hsubscribed] at hfinal
      rw [hrooted, hsubscribed] at hloop
      refine ⟨b', ?_, ?_, hquiet.trans hquiet'⟩
      · simp only
        rw [hloop, List.append_assoc, sentCodes, sentCode, if_neg hp, hgive]
        rfl
      · rw [hfinal]
        show _ = giveUpAll (permits env ctx) [] subs
          (giveUp (permits env ctx) [] sub (b.subscribed c))
        rw [hgive]

end Loop

/-! ## Subscriptions made by SUBSCRIBE -/

theorem addBranches_ok {topics : List Bytes} {p : Path} {t : SubTree} (hok : t.Ok)
    (hp : t.has p) : (addBranches topics p t).1.Ok := by
  induction topics generalizing p t with
  | nil => exact hok
  | cons topic topics ih =>
    obtain ⟨hok', hhas, -⟩ := SubTree.addHierEntry_spec (p := p ++ [topic]) hok (by simp)
      (by rw [List.dropLast_concat]; exact fun _ => hp)
    unfold addBranches
    split
    · exact hok
    · exact ih hok' ((hhas _).mpr (.inl rfl))

theorem addBranches_long {topics : List Bytes} {l : Bytes} (hl : l ∈ topics)
    (hlen : 65535 < l.length) (p : Path) (t : SubTree) :
    (addBranches topics p t).2 = .error Rc.inval := by
  induction topics generalizing p t with
  | nil => cases hl
  | cons topic topics ih =>
    unfold addBranches
    split
    · rfl
    · rename_i hshort
      rcases List.mem_cons.mp hl with rfl | hl
      · exact absurd hlen hshort
      · exact ih hl _ _

theorem subAdd_ok (ids : CtxId → Option Bytes) (c : CtxId) (protocol : Protocol) (sub : Bytes)
    (qos : Qos) (identifier : Nat) (options : UInt8) {st : SubSt} (hok : st.tree.Ok) :
    (subAdd ids c protocol sub qos identifier options st).2.tree.Ok := by
  cases htok : subTopicTokenise sub with
  | error rc =>
    unfold subAdd
    rw [htok]
    exact hok
  | ok r =>
    obtain ⟨topics, share⟩ := r
    by_cases hlen : ∀ l ∈ topics, l.length ≤ 65535
    · exact (subAdd_spec ids c protocol qos identifier options st hok htok hlen).1
    · unfold subAdd
      rw [htok]
      simp only
      split
      · exact hok
      · obtain ⟨hok', hhas, -⟩ := SubTree.addHierEntry_spec (p := [topics.headD []]) hok (by simp)
          (by simp)
        have hbranches := @addBranches_ok topics _ _ hok' ((hhas _).mpr (.inl rfl))
        obtain ⟨l, hl, hlong⟩ : ∃ l ∈ topics, 65535 < l.length := by
          simpa using hlen
        have herror := addBranches_long hl hlong [topics.headD []]
          (st.tree.addHierEntry [topics.headD []])
        unfold subAddContext
        split
        · rename_i heq
          rw [heq] at hbranches
          exact hbranches
        · rename_i heq
          rw [heq] at herror
          cases herror

theorem subs_onClient (c : CtxId) (f : Machine → Rc × Machine) (b : State) :
    (b.onClient c f).2.subs = b.subs := by
  unfold State.onClient
  split <;> rfl

theorem subs_retainQueue (env : Env) (c : CtxId) (sub : Bytes) (subQos : Qos) (identifier : Nat)
    (b : State) : (retainQueue env c sub subQos identifier b).2.subs = b.subs := by
  refine keeps_retainQueue (P := fun b' => b'.subs = b.subs) (fun branch b' h => ?_)
    (fun _ _ b' h => (subs_onClient _ _ b').trans h) sub subQos rfl
  unfold setRetained
  split <;> exact h

section Made

variable {env : Env} {c : CtxId} {ctx : Context}

theorem ok_subscribeLoop {identifier : Nat} {filters : List SubscribeFilter} :
    ∀ {payload : Bytes} {b : State}, b.subs.tree.Ok →
      (subscribeLoop env c ctx identifier filters payload b).2.subs.tree.Ok := by
  have hone : ∀ (f : SubscribeFilter) (b : State), b.subs.tree.Ok →
      (subscribeOne env c ctx identifier f b).2.subs.tree.Ok := by
    intro f b hok
    unfold subscribeOne
    split
    · exact hok
    · exact hok
    · split
      · exact hok
      · split
        · exact hok
        · extract_lets sub rc2 r wanted identifier b'
          have hadd : r.2.subs.tree.Ok :=
            @subAdd_ok b.ids c ctx.protocol sub _ _ _ ⟨b.subs.tree, b.subs.subs c⟩ hok
          split
          · exact hok
          · split
            · exact hok
            · split
              · exact hadd
              · show (if wanted then _ else r.2 : State).subs.tree.Ok
                split
                · rw [subs_retainQueue]
                  exact hadd
                · exact hadd
  induction filters with
  | nil => exact fun hok => hok
  | cons f filters ih =>
    intro payload b hok
    have hok' := hone f b hok
    unfold subscribeLoop
    split
    · rename_i heq
      rw [heq] at hok'
      exact hok'
    · rename_i heq
      rw [heq] at hok'
      exact ih hok'

theorem ok_unsubscribeLoop {filters : List SubscribeFilter} :
    ∀ {reason : UInt8} {codes : Bytes} {b : State}, b.subs.tree.Ok →
      (unsubscribeLoop env c ctx filters reason codes b).2.subs.tree.Ok := by
  have hremove : ∀ (sub : Bytes) (reason : UInt8) (b : State), b.subs.tree.Ok →
      (b.subRemove c sub reason).2.2.subs.tree.Ok := by
    intro sub reason b hok
    cases htok : subTopicTokenise sub with
    | error rc =>
      unfold State.subRemove subRemove
      rw [htok]
      exact hok
    | ok r => exact (subRemove_spec c reason ⟨b.subs.tree, b.subs.subs c⟩ hok htok).1
  induction filters with
  | nil => exact fun hok => hok
  | cons f filters ih =>
    intro reason codes b hok
    unfold unsubscribeLoop
    split
    · exact hok
    · rename_i sub _
      split
      · exact hok
      · extract_lets rc b₁ r
        have hok₁ : b₁.subs.tree.Ok := by
          show (if _ then _ else b : State).subs.tree.Ok
          split <;> exact hok
        have hok₂ : r.2.2.subs.tree.Ok := by
          show (if _ then _ else _ : Rc × UInt8 × State).2.2.subs.tree.Ok
          split
          · exact hremove _ _ _ hok₁
          · exact hok₁
        split
        · exact hok
        · split
          · exact hok₂
          · exact ih hok₂

/-- The states whose subscriptions were made by `handle__subscribe` and given up by
`handle__unsubscribe`; whatever else happens leaves the tree alone. -/
inductive Made : State → Prop where
  | start {b : State} (h : b.subs = SubWorld.init) : Made b
  | subscribe {b : State} (env : Env) (c : CtxId) (p : SubscribePacket) (h : Made b) :
    Made (handleSubscribe env c p b).2
  | unsubscribe {b : State} (env : Env) (c : CtxId) (p : SubscribePacket) (h : Made b) :
    Made (handleUnsubscribe env c p b).2
  | other {b b' : State} (h : Made b) (hsubs : b'.subs = b.subs) : Made b'

theorem ok_handleSubscribe {p : SubscribePacket} {b : State} (hok : b.subs.tree.Ok) :
    (handleSubscribe env c p b).2.subs.tree.Ok := by
  unfold handleSubscribe
  split
  · exact hok
  · rename_i ctx _
    split
    · exact hok
    · split
      · exact hok
      · split
        · exact hok
        · rename_i identifier _
          have hloop := @ok_subscribeLoop env c ctx identifier p.filters [] b hok
          split
          · rename_i heq
            rw [heq] at hloop
            exact hloop
          · rename_i heq
            rw [heq] at hloop
            split
            · exact hloop
            · rw [subs_onClient]
              exact hloop

theorem ok_handleUnsubscribe {p : SubscribePacket} {b : State} (hok : b.subs.tree.Ok) :
    (handleUnsubscribe env c p b).2.subs.tree.Ok := by
  unfold handleUnsubscribe
  split
  · exact hok
  · rename_i ctx _
    split
    · exact hok
    · split
      · exact hok
      · split
        · exact hok
        · have hloop := @ok_unsubscribeLoop env c ctx p.filters 0 [] b hok
          split
          · rename_i heq
            rw [heq] at hloop
            exact hloop
          · rename_i heq
            rw [heq] at hloop
            rw [subs_onClient]
            exact hloop

theorem Made.ok {b : State} (h : Made b) : b.subs.tree.Ok := by
  induction h with
  | start h =>
    rw [h]
    exact SubTree.dbOpen_spec.1
  | subscribe env c p _ ih => exact ok_handleSubscribe ih
  | unsubscribe env c p _ ih => exact ok_handleUnsubscribe ih
  | other _ hsubs ih =>
    rw [hsubs]
    exact ih

end Made

/-! ## UNSUBSCRIBE -/

/-- The UNSUBACK packets sent to client `c`: mid and reason codes. -/
def State.unsubacks (c : CtxId) (b : State) : List (UInt16 × Bytes) :=
  ((b.contexts.get c).map (·.replies.filterMap fun
    | .unsuback mid reasonCodes => some (mid, reasonCodes)
    | _ => none)).getD []

/-- An UNSUBSCRIBE packet for these filters. -/
structure Unsubscribes (protocol : Protocol) (mid : UInt16) (subs : List Bytes)
    (p : SubscribePacket) : Prop where
  command : p.command = 0xA2
  read : p.mid = .ok mid
  nonzero : mid ≠ 0
  properties : protocol = .mqtt5 → ∃ props, p.properties = .ok props
  filters : p.filters.map (·.sub) = subs.map .ok
  nonempty : subs ≠ []

/-- UNSUBSCRIBE undoes SUBSCRIBE: the permitted filters are given up, and each is answered with
the code for what was there at its turn. -/
structure Undoes (env : Env) (c : CtxId) (ctx : Context) (mid : UInt16) (subs : List Bytes)
    (p : SubscribePacket) (b : State) : Prop where
  subscriptions : ∀ s, (handleUnsubscribe env c p b).2.subscribed c s = true ↔
    b.subscribed c s = true ∧
      ∀ sub ∈ subs, permits env ctx sub = true → s ≠ ctx.mountPoint.getD [] ++ sub
  codes : (handleUnsubscribe env c p b).2.unsubacks c = b.unsubacks c ++
    [(mid, dueCodes (permits env ctx) (ctx.mountPoint.getD []) subs (b.subscribed c))]

section Unsubscribe

variable {env : Env} {c : CtxId} {ctx : Context} {b : State} {mid : UInt16} {subs : List Bytes}
  {p : SubscribePacket}

/-- What `handle__unsubscribe` does to the subscriptions of its client, and what it answers. -/
theorem handleUnsubscribe_spec (hok : b.subs.tree.Ok) (hget : b.contexts.get c = some ctx)
    (hactive : ctx.state = .active) (hp : Unsubscribes ctx.protocol mid subs p)
    (hlisted : ∀ sub ∈ subs, Listed env ctx sub) :
    (handleUnsubscribe env c p b).2.subscribed c =
        giveUpAll (permits env ctx) [] subs (b.subscribed c) ∧
      (handleUnsubscribe env c p b).2.unsubacks c = b.unsubacks c ++
        [(mid, sentCodes (permits env ctx) b.rooted 0 subs (b.subscribed c))] := by
  obtain ⟨b', hloop, hfinal, hquiet⟩ := @unsubscribeLoop_spec env c ctx subs hlisted p.filters 0 []
    b hp.filters hok
  rw [List.nil_append] at hloop
  obtain ⟨props, hread⟩ : ∃ props, readSubscribe 0xA2 ctx.protocol p = .ok (mid, props) := by
    by_cases h5 : ctx.protocol = .mqtt5
    · obtain ⟨props, hprops⟩ := hp.properties h5
      refine ⟨props, readSubscribe_eq_ok.mpr ⟨hp.command, hp.read, hp.nonzero, ?_⟩⟩
      rw [if_pos h5]
      exact hprops
    · refine ⟨[], readSubscribe_eq_ok.mpr ⟨hp.command, hp.read, hp.nonzero, ?_⟩⟩
      rw [if_neg h5]
  have hfilters : p.filters ≠ [] := by
    intro hnil
    have := hp.filters
    rw [hnil] at this
    exact hp.nonempty (List.map_eq_nil_iff.mp this.symm)
  have hhandle : handleUnsubscribe env c p b = b'.onClient c (sendCommand env.net (.unsuback mid
      (sentCodes (permits env ctx) b.rooted 0 subs (b.subscribed c)))) := by
    unfold handleUnsubscribe
    rw [hget]
    simp only
    rw [if_neg (not_not.mpr hactive), hread]
    simp only
    rw [if_neg fun h => hfilters h.2, hloop]
  rw [hhandle]
  constructor
  · rw [← hfinal]
    unfold State.subscribed
    rw [subs_onClient]
  · obtain ⟨ctx', hget', -⟩ : ∃ ctx', b'.contexts.get c = some ctx' ∧
        ctx'.incoming = ctx.incoming := by
      have hc := hquiet.1 c
      rw [hget, Option.map_some, Option.map_eq_some_iff] at hc
      exact hc
    have hbefore : b'.unsubacks c = b.unsubacks c :=
      congrArg (Option.getD · []) (hquiet.replies (fun _ => rfl) c)
    rw [← hbefore]
    unfold State.onClient State.unsubacks
    rw [hget']
    simp only
    rw [Heap.get_set_self]
    show List.filterMap _ (ctx'.replies ++ [_]) = List.filterMap _ ctx'.replies ++ _
    rw [List.filterMap_append]
    rfl

/-- **UNSUBSCRIBE undoes SUBSCRIBE if and only if** the listener has no mount point, or no
permitted filter of the packet stands for a subscription, with the mount point or without; and
every permitted filter whose root is not in the tree comes right after one that is answered with
"no subscription existed". -/
theorem unsubscribe_undoes_iff (hmade : Made b) (hget : b.contexts.get c = some ctx)
    (hactive : ctx.state = .active) (hp : Unsubscribes ctx.protocol mid subs p)
    (hlisted : ∀ sub ∈ subs, Listed env ctx sub) :
    Undoes env c ctx mid subs p b ↔
      (ctx.mountPoint.getD [] = [] ∨ ∀ sub ∈ subs, permits env ctx sub = true →
        b.subscribed c (ctx.mountPoint.getD [] ++ sub) = false ∧ b.subscribed c sub = false) ∧
      Followed (permits env ctx) b.rooted (ctx.mountPoint.getD []) 0 subs (b.subscribed c) := by
  obtain ⟨hsets, hcodes⟩ := handleUnsubscribe_spec hmade.ok hget hactive hp hlisted
  refine Iff.trans ?_ (undone_iff fun s (hs : b.subscribed c s = true) =>
    rooted_of_subscribed hmade.ok hs)
  constructor
  · rintro ⟨hsubscriptions, hdue⟩
    constructor
    · funext s
      rw [Bool.eq_iff_iff, ← hsets, hsubscriptions, giveUpAll_eq_true]
    · rw [hcodes] at hdue
      exact (Prod.mk.inj (List.singleton_inj.mp (List.append_cancel_left hdue))).2
  · rintro ⟨heq, heq'⟩
    constructor
    · intro s
      rw [hsets, heq, giveUpAll_eq_true]
    · rw [hcodes, heq']

end Unsubscribe

def subscribePacket (sub : Bytes) : SubscribePacket := ⟨0x82, .ok 1, .ok [], [⟨.ok sub, .ok 0⟩]⟩

def unsubscribePacket (sub : Bytes) : SubscribePacket :=
  ⟨0xA2, .ok 1, .ok [], [⟨.ok sub, .error Rc.malformedPacket⟩]⟩

/-- The broker with one client, whose listener has this mount point, and with its subscription for
`a`. -/
def subscribedBroker (mountPoint : Option Bytes) : State :=
  (handleSubscribe .granting 0 (subscribePacket (ascii "a"))
    (subscriberBroker.modifyClient 0 ({ · with mountPoint }))).2

def subscribedClient (mountPoint : Option Bytes) : Context :=
  ((subscribedBroker mountPoint).contexts.get 0).getD subscriber

theorem made_subscribedBroker (mountPoint : Option Bytes) : Made (subscribedBroker mountPoint) :=
  .subscribe _ _ _ (.start rfl)

theorem unsubscribes_one (protocol : Protocol) (sub : Bytes) :
    Unsubscribes protocol 1 [sub] (unsubscribePacket sub) :=
  ⟨rfl, rfl, by decide, fun _ => ⟨[], rfl⟩, rfl, List.cons_ne_nil _ _⟩

/-- Without a mount point the subscription is given up. -/
theorem unsubscribe_undoes_one :
    (subscribedBroker none).subscribed 0 (ascii "a") = true ∧
      Undoes .granting 0 (subscribedClient none) 1 [ascii "a"] (unsubscribePacket (ascii "a"))
        (subscribedBroker none) := by
  refine ⟨by decide +kernel, ?_⟩
  refine (@unsubscribe_undoes_iff .granting 0 (subscribedClient none) (subscribedBroker none) 1
    [ascii "a"] (unsubscribePacket (ascii "a")) (made_subscribedBroker none) (by decide +kernel)
    (by decide +kernel) (unsubscribes_one _ _) ?_).mpr ⟨.inl (by decide +kernel), ?_, trivial⟩
  · intro sub hsub
    obtain rfl := List.mem_singleton.mp hsub
    exact ⟨by decide, ⟨([[], ascii "a"], none), by decide⟩, .inl (by decide +kernel)⟩
  · exact fun _ hroot => absurd hroot (by decide +kernel)

/-- **UNSUBSCRIBE does not undo SUBSCRIBE** behind a mount point: `m/a` stays, and the client is
told that there was no subscription. Without one, a filter under a root that is not there is
answered with success. -/
theorem mounted_subscription_stays :
    (subscribedBroker (some (ascii "m/"))).subscribed 0 (ascii "m/a") = true ∧
    (handleUnsubscribe .granting 0 (unsubscribePacket (ascii "a"))
      (subscribedBroker (some (ascii "m/")))).2.subscribed 0 (ascii "m/a") = true ∧
    (handleUnsubscribe .granting 0 (unsubscribePacket (ascii "a"))
      (subscribedBroker (some (ascii "m/")))).2.unsubacks 0 = [(1, [0x11])] ∧
    ¬ Undoes .granting 0 (subscribedClient (some (ascii "m/"))) 1 [ascii "a"]
      (unsubscribePacket (ascii "a")) (subscribedBroker (some (ascii "m/"))) ∧
    (subscribedBroker none).subscribed 0 (ascii "$x") = false ∧
    (handleUnsubscribe .granting 0 (unsubscribePacket (ascii "$x"))
      (subscribedBroker none)).2.unsubacks 0 = [(1, [0])] := by
  have hstays : (handleUnsubscribe .granting 0 (unsubscribePacket (ascii "a"))
      (subscribedBroker (some (ascii "m/")))).2.subscribed 0 (ascii "m/a") = true := by
    decide +kernel
  refine ⟨by decide +kernel, hstays, by decide +kernel, fun h => ?_, by decide +kernel,
    by decide +kernel⟩
  exact ((h.subscriptions _).mp hstays).2 (ascii "a") List.mem_cons_self (by decide +kernel)
    (by decide +kernel)

end AdaptiveMqtt.Broker
