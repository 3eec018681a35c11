import AdaptiveMqtt.Broker.RetainTree
import AdaptiveMqtt.Sub.Deliver

/-!
# Retained messages for a new subscription

`retainCalls` are the calls of `retain__process` that `retain__queue` makes. For a filter
that does not start with `$` the first level below the root is the empty one, where
nothing is retained, and the walk misses nothing. For one that does it is the first level
of the topic, so that `$x/#` misses a retained `$x` that stands alone.
-/

namespace AdaptiveMqtt.Broker

open Lib Topic AdaptiveMqtt.Sub Db

/-! ## The calls -/

def retainNodes (sub : Bytes) (b : State) : List Path :=
  match subTopicTokenise sub with
  | .error _ => []
  | .ok (splitTopics, _) =>
    let root := [splitTopics.headD []]
    if hasNode b.retains root then
      (retainSearch (childrenOf b.retains) b.retains.keys.length splitTopics 0 root).2 else []

theorem retainQueue_state (env : Env) (c : CtxId) (sub : Bytes) (subQos : Qos) (identifier : Nat)
    (b : State) : (retainQueue env c sub subQos identifier b).2 = (retainNodes sub b).foldl
      (fun b branch => (retainProcess env c subQos identifier branch b).2) b := by
  unfold retainQueue retainNodes
  cases subTopicTokenise sub <;> rfl

/-- The calls of `retain__process` at these nodes: `branch` and `branch->retained`. -/
def processCalls (env : Env) (c : CtxId) (subQos : Qos) (identifier : Nat) :
    List Path → State → List (Path × MsgStore)
  | [], _ => []
  | branch :: nodes, b =>
    ((b.retainedAt branch).toList.map (branch, ·)) ++
      processCalls env c subQos identifier nodes (retainProcess env c subQos identifier branch b).2

def retainCalls (env : Env) (c : CtxId) (sub : Bytes) (subQos : Qos) (identifier : Nat)
    (b : State) : List (Path × MsgStore) :=
  processCalls env c subQos identifier (retainNodes sub b) b

section Calls

variable (env : Env) (c : CtxId) (subQos : Qos) (identifier : Nat)

theorem onClient_retains (f : Machine → Rc × Machine) (b : State) :
    (b.onClient c f).2.retains = b.retains := by
  unfold State.onClient
  split <;> rfl

theorem retainedAt_retainProcess {p q : Path} (h : q ≠ p) (b : State) :
    (retainProcess env c subQos identifier p b).2.retainedAt q = b.retainedAt q := by
  unfold retainProcess
  split
  · rename_i retained ctx hr hc
    have hp : hasNode b.retains p := by
      obtain ⟨n, hn, -⟩ := Option.bind_eq_some_iff.mp hr
      exact Option.isSome_iff_exists.mpr ⟨n, hn⟩
    have hkeep : ∀ f, (b.onClient c f).2.retainedAt q = b.retainedAt q := by
      intro f
      rw [State.retainedAt, onClient_retains]
      rfl
    split
    · exact (retainedAt_setRetained hp none q).trans (if_neg h)
    · extract_lets rc rc'
      split
      · rfl
      · split
        · rfl
        · split
          · rfl
          · split
            · rfl
            · exact hkeep _
  · rfl

theorem processCalls_eq {nodes : List Path} (hnd : nodes.Nodup) (b : State) :
    processCalls env c subQos identifier nodes b =
      nodes.flatMap fun p => (b.retainedAt p).toList.map (p, ·) := by
  induction nodes generalizing b with
  | nil => rfl
  | cons p nodes ih =>
    rw [List.nodup_cons] at hnd
    rw [processCalls, ih hnd.2, List.flatMap_cons]
    congr 1
    refine List.flatMap_congr fun q hq => ?_
    have hne : q ≠ p := fun h => hnd.1 (h ▸ hq)
    rw [retainedAt_retainProcess env c subQos identifier hne]

variable {ops : List (Bytes × MsgStore)} {b : State} {sub : Bytes}

/-- The nodes the search comes to are those that match, once each. -/
theorem count_retainNodes (hk : Kept ops b) (hs : mosquittoSubTopicCheck sub = Rc.success)
    (htok : subTopicTokenise sub = .ok (tokens sub, none)) (k : Bytes) (r : List Bytes) :
    (retainNodes sub b).count (k :: r) =
      if r ≠ [] ∧ hasNode b.retains (k :: r) ∧ k = (tokens sub).headD [] ∧
        levelMatch (tokens sub) r ∧ ¬ Missed (childrenOf b.retains) (tokens sub) 0 [k] r
      then 1 else 0 := by
  have hlast : ∀ pre post, tokens sub = pre ++ [hash] :: post → post = [] :=
    fun pre post h => (hash_last_topics hs htok h).2
  unfold retainNodes
  rw [htok]
  simp only
  by_cases hroot : hasNode b.retains [(tokens sub).headD []]
  · rw [if_pos hroot]
    by_cases hk0 : k = (tokens sub).headD []
    · have hbelow := hk.grown.below_iff hroot r
      rw [← hk0] at hbelow ⊢
      have hcount := count_retainSearch hk.grown.nodup 0 (p := [k]) (r := r) hlast
        (tokens_ne_nil sub) fun h => hk.grown.depth_le (List.cons_ne_nil _ _) (hbelow.mp h)
      refine hcount.trans (if_congr ?_ rfl rfl)
      rw [hbelow]
      simp
    · rw [if_neg fun h => hk0 h.2.2.1, List.count_eq_zero]
      intro hm
      exact hk0 (List.cons_prefix_cons.mp (prefix_of_mem_retainSearch hm)).1.symm
  · rw [if_neg hroot, if_neg]
    · rfl
    · rintro ⟨-, hn, rfl, -⟩
      exact hroot (hk.grown.above (List.cons_ne_nil _ _) r hn)

theorem nodup_retainNodes (hk : Kept ops b) (hs : mosquittoSubTopicCheck sub = Rc.success)
    (htok : subTopicTokenise sub = .ok (tokens sub, none)) : (retainNodes sub b).Nodup := by
  rw [List.nodup_iff_count_le_one]
  intro q
  rcases q with _ | ⟨k, r⟩
  · have hnil : (retainNodes sub b).count [] = 0 := by
      rw [List.count_eq_zero]
      intro hm
      unfold retainNodes at hm
      rw [htok] at hm
      simp only at hm
      split at hm
      · exact List.cons_ne_nil _ _ (List.prefix_nil.mp (prefix_of_mem_retainSearch hm))
      · cases hm
    omega
  · rw [count_retainNodes hk hs htok]
    split <;> omega

theorem Kept.retainedAt_eq (hk : Kept ops b) (topic : Bytes) :
    b.retainedAt (nodeOf (tokens topic)) = lastRetained ops topic := by
  apply Option.ext
  intro s
  rw [hk.retained]
  constructor
  · rintro ⟨topic', he, hs⟩
    exact nodeOf_tokens_inj he ▸ hs
  · exact fun hs => ⟨topic, rfl, hs⟩

theorem Kept.hasNode_of_retained (hk : Kept ops b) {topic : Bytes}
    (h : (lastRetained ops topic).isSome = true) : hasNode b.retains (nodeOf (tokens topic)) := by
  rw [← hk.retainedAt_eq, State.retainedAt, Option.isSome_bind] at h
  cases hn : b.retains.get (nodeOf (tokens topic)) with
  | none => rw [hn] at h; cases h
  | some n => exact Option.isSome_iff_exists.mpr ⟨n, hn⟩

theorem map_fst_calls (f : Path → Option MsgStore) (nodes : List Path) :
    (nodes.flatMap fun p => (f p).toList.map (p, ·)).map (·.1) =
      nodes.filter fun p => (f p).isSome := by
  induction nodes with
  | nil => rfl
  | cons p nodes ih =>
    rw [List.flatMap_cons, List.map_append, ih, List.filter_cons]
    cases f p <;> rfl

/-- **The calls for a filter that is not shared.** -/
theorem count_retainCalls (hk : Kept ops b) (hs : mosquittoSubTopicCheck sub = Rc.success)
    (htok : subTopicTokenise sub = .ok (tokens sub, none)) :
    (∀ call ∈ retainCalls env c sub subQos identifier b, ∃ topic,
      call.1 = nodeOf (tokens topic) ∧ lastRetained ops topic = some call.2) ∧
    ∀ topic, ((retainCalls env c sub subQos identifier b).map (·.1)).count (nodeOf (tokens topic)) =
      if (lastRetained ops topic).isSome ∧ (tokens sub).headD [] = (tokens topic).headD [] ∧
        levelMatch (tokens sub) (tokens topic) ∧
        ¬ Missed (childrenOf b.retains) (tokens sub) 0 [(tokens topic).headD []] (tokens topic)
      then 1 else 0 := by
  rw [retainCalls, processCalls_eq _ _ _ _ (nodup_retainNodes hk hs htok)]
  refine ⟨?_, fun topic => ?_⟩
  · rintro ⟨p, s⟩ hm
    obtain ⟨q, -, hq⟩ := List.mem_flatMap.mp hm
    obtain ⟨s', hs', he⟩ := List.mem_map.mp hq
    cases he
    exact (hk.retained p s).mp (Option.mem_toList.mp hs')
  · rw [map_fst_calls]
    by_cases hr : (lastRetained ops topic).isSome = true
    · have hat : (b.retainedAt (nodeOf (tokens topic))).isSome = true := by
        rw [hk.retainedAt_eq, hr]
      have hcount := List.count_filter (p := fun p => (b.retainedAt p).isSome) hat
        (l := retainNodes sub b)
      rw [hcount, nodeOf, count_retainNodes hk hs htok]
      have hnode := hk.hasNode_of_retained hr
      refine if_congr ?_ rfl rfl
      simp only [hr, true_and]
      exact ⟨fun h => ⟨h.2.2.1.symm, h.2.2.2⟩, fun h => ⟨tokens_ne_nil topic, hnode, h.1.symm, h.2⟩⟩
    · rw [if_neg fun h => hr h.1, List.count_eq_zero]
      intro hm
      have := (List.mem_filter.mp hm).2
      rw [hk.retainedAt_eq] at this
      exact hr this

end Calls

/-! ## Ordinary filters -/

/-- A filter that does not start with `$` misses nothing: the node right below its root is
that of no topic. -/
theorem not_missed_ordinary {children : Path → List Bytes} {sub topic : Bytes} {p : Path}
    (hd : sub.head? ≠ some dollar) (hagree : dollarAgree sub topic) :
    ¬ Missed children (tokens sub) 0 p (tokens topic) := by
  rintro ⟨-, -, hone, -⟩
  have ht : topic.head? ≠ some dollar := fun h => hd (hagree.mpr h)
  rw [tokens, if_neg ht] at hone
  exact levels_ne_nil topic hone

/-- **Retained delivery is exact for ordinary filters.** After any sequence of stores,
`retain__queue` calls `retain__process` once for each topic whose last publish had a payload
and which the filter matches, with that message, and for no other topic. -/
theorem retained_exact (env : Env) (c : CtxId) (subQos : Qos) (identifier : Nat) {b : State}
    (hb : b.retains = retainInit) {ops : List (Bytes × MsgStore)}
    (hops : ∀ op ∈ ops, PubTopic op.1) {sub : Bytes}
    (hs : mosquittoSubTopicCheck sub = Rc.success) (hd : sub.head? ≠ some dollar) :
    let calls := retainCalls env c sub subQos identifier (retainRun ops b)
    (∀ call ∈ calls, ∃ topic,
      call.1 = nodeOf (tokens topic) ∧ lastRetained ops topic = some call.2) ∧
    ∀ topic, (calls.map (·.1)).count (nodeOf (tokens topic)) =
      if (lastRetained ops topic).isSome ∧ (mosquittoTopicMatchesSub sub topic).2 = true
      then 1 else 0 := by
  intro calls
  have hk := kept_retainRun hb hops
  by_cases hne : sub = []
  · have hnil : calls = [] := by
      show retainCalls env c sub subQos identifier (retainRun ops b) = []
      rw [hne]
      rfl
    rw [hnil, hne]
    simp [mosquittoTopicMatchesSub]
  · have hshare : (levels sub).head? ≠ some (ascii "$share") := by
      intro h
      exact hd ((head_levels dollar (by decide)).mp ⟨_, by rw [h, ascii_share]⟩)
    have htok : subTopicTokenise sub = .ok (tokens sub, none) := by
      rw [subTopicTokenise_eq hne, if_neg hshare]
    obtain ⟨hcalls, hcount⟩ := count_retainCalls env c subQos identifier hk hs htok
    refine ⟨hcalls, fun topic => (hcount topic).trans (if_congr (and_congr_right ?_) rfl rfl)⟩
    intro hr
    obtain ⟨op, hop, rfl⟩ := mem_of_lastRetained hr
    obtain ⟨htne, hcheck, -⟩ := hops op hop
    rw [mosquittoTopicMatchesSub_eq hne htne hs hcheck, ← and_assoc, tokens_match,
      Bool.and_eq_true, decide_eq_true_eq]
    exact ⟨And.left, fun h => ⟨h, not_missed_ordinary hd h.1⟩⟩

def State.withClient : State :=
  let b := State.dbOpen Config.init fun _ => ⟨0, 0, 0⟩
  { b with contexts := b.contexts.set 0 { Context.init Config.init (some 3) with id := some (ascii "c") } }

def MsgStore.retainable (addr : StoreId) (topic payload : Bytes) : Bytes × MsgStore :=
  (topic, ⟨addr, .moClient, ascii "p", 0, topic, payload, [], 0, .q1, true⟩)

/-- `a/#` gets the messages of `a` and `a/b`, but not the one of `b`, and not the one of `a/c`,
which was deleted. -/
theorem retained_exact_hash :
    let ops := [MsgStore.retainable 1 (ascii "a/c") [1], MsgStore.retainable 2 (ascii "a/b") [1],
      MsgStore.retainable 3 (ascii "b") [1], MsgStore.retainable 4 (ascii "a/c") [],
      MsgStore.retainable 5 (ascii "a") [1]]
    let calls := retainCalls Env.granting 0 (ascii "a/#") .q1 0 (retainRun ops State.withClient)
    calls.map (·.2.addr) = [2, 5] ∧
    ∀ topic, (calls.map (·.1)).count (nodeOf (tokens topic)) =
      if (lastRetained ops topic).isSome ∧ (mosquittoTopicMatchesSub (ascii "a/#") topic).2 = true
      then 1 else 0 :=
  ⟨by decide, (retained_exact Env.granting 0 .q1 0 rfl (by decide) (by decide) (by decide)).2⟩

/-! ## Filters that start with `$` -/

/-- The topic is a single level, the filter is that level and `#`, and nothing else was ever
stored below the level. -/
def Overlooked (ops : List (Bytes × MsgStore)) (sub topic : Bytes) : Prop :=
  ∃ l, levels topic = [l] ∧ levels sub = [l, [hash]] ∧
    ∀ op ∈ ops, (levels op.1).head? = some l → op.1 = topic

theorem tokens_dollar {s : Bytes} (h : s.head? = some dollar) : tokens s = levels s := if_pos h

/-- The missed match in terms of the stores. -/
theorem missed_iff_overlooked {ops : List (Bytes × MsgStore)} {b : State} (hk : Kept ops b)
    (hops : ∀ op ∈ ops, op.1.head? = some dollar) {sub topic : Bytes}
    (hsub : sub.head? = some dollar) (htopic : topic.head? = some dollar) :
    (((tokens sub).headD [] = (tokens topic).headD [] ∧ levelMatch (tokens sub) (tokens topic)) ∧
      Missed (childrenOf b.retains) (tokens sub) 0 [(tokens topic).headD []] (tokens topic)) ↔
    Overlooked ops sub topic := by
  rw [tokens_dollar hsub, tokens_dollar htopic]
  obtain ⟨l, ls, hl⟩ := List.exists_cons_of_ne_nil (levels_ne_nil topic)
  obtain ⟨k, ks, hks⟩ := List.exists_cons_of_ne_nil (levels_ne_nil sub)
  have hchild : ∀ t, t ∈ childrenOf b.retains [l, l] ↔ ∃ op ∈ ops, [l, t] <+: levels op.1 := by
    intro t
    rw [hk.grown.child _ _ (List.cons_ne_nil _ _), hk.node]
    constructor
    · rintro (⟨-, op, hop, h⟩ | h | h)
      · rw [nodeOf, tokens_dollar (hops op hop)] at h
        exact ⟨op, hop, (List.cons_prefix_cons.mp h).2⟩
      · simp at h
      · simp at h
    · rintro ⟨op, hop, h⟩
      refine .inl ⟨List.cons_ne_nil _ _, op, hop, ?_⟩
      rw [nodeOf, tokens_dollar (hops op hop)]
      obtain ⟨x, xs, hx⟩ := List.exists_cons_of_ne_nil (levels_ne_nil op.1)
      rw [hx] at h ⊢
      obtain ⟨rfl, -⟩ := List.cons_prefix_cons.mp h
      exact List.cons_prefix_cons.mpr ⟨rfl, h⟩
  rw [hl, hks]
  constructor
  · rintro ⟨⟨he, -⟩, -, hhash, hone, hnone⟩
    obtain rfl : k = l := he
    obtain rfl : ls = [] := hone
    obtain rfl : ks = [[hash]] := hhash
    refine ⟨k, hl, hks, fun op hop hfirst => levels_inj ?_⟩
    obtain ⟨x, xs, hx⟩ := List.exists_cons_of_ne_nil (levels_ne_nil op.1)
    rw [hx] at hfirst ⊢
    obtain rfl : x = k := Option.some.inj hfirst
    rcases xs with _ | ⟨t, xs⟩
    · exact hl.symm
    · have : t ∈ childrenOf b.retains [x, x] :=
        (hchild t).mpr ⟨op, hop, by rw [hx]; exact ⟨xs, rfl⟩⟩
      rw [show childrenOf b.retains [x, x] = [] from hnone] at this
      cases this
  · rintro ⟨l', hl', hs', hothers⟩
    obtain ⟨rfl, rfl⟩ := List.cons_eq_cons.mp (hl.symm.trans hl')
    obtain ⟨rfl, rfl⟩ := List.cons_eq_cons.mp (hks.symm.trans hs')
    have hne : k ≠ [hash] := by
      obtain ⟨u, hu⟩ := (head_levels dollar (by decide)).mpr hsub
      rw [hks] at hu
      rintro rfl
      cases hu
    refine ⟨⟨rfl, ?_⟩, rfl, rfl, rfl, ?_⟩
    · rw [levelMatch_cons hne]
      simp
    · rw [List.eq_nil_iff_forall_not_mem]
      intro t ht
      obtain ⟨op, hop, h⟩ := (hchild t).mp ht
      have hfirst : (levels op.1).head? = some k := by
        obtain ⟨u, hu⟩ := h
        rw [← hu]
        rfl
      rw [hothers op hop hfirst, hl] at h
      have := h.length_le
      simp at this

/-- **Retained and live delivery agree on `$` topics unless the topic is overlooked.** The
live side is the search `sub__messages_queue` makes in the tree of any history of
subscriptions in which `leaf` holds the filter and `no_local` does not exclude it. -/
theorem retained_agrees_iff (env : Env) (c : CtxId) (subQos : Qos) (identifier : Nat) {b : State}
    (hb : b.retains = retainInit) {ops : List (Bytes × MsgStore)}
    (hops : ∀ op ∈ ops, PubTopic op.1 ∧ op.1.head? = some dollar) {sub : Bytes}
    (hs : mosquittoSubTopicCheck sub = Rc.success) (hd : sub.head? = some dollar)
    (hshare : (levels sub).head? ≠ some (ascii "$share"))
    {σ : Type} (send : Path → Option Bytes → SubLeaf → σ → Rc × σ) (ids : CtxId → Option Bytes)
    (protocol : CtxId → Protocol) {subOps : List SubOp} (hv : ∀ op ∈ subOps, op.Valid)
    (sourceId : Bytes) {leaf : SubLeaf}
    (hleaf : (SubWorld.run ids protocol subOps).tree.IsLeaf (nodeOf (tokens sub)) none leaf)
    (hex : excluded ids sourceId leaf = false) (s : σ) {topic : Bytes}
    (hr : (lastRetained ops topic).isSome = true) :
    let calls := retainCalls env c sub subQos identifier (retainRun ops b)
    let log := (searchTopic (logged send) ids sourceId topic
      (SubWorld.run ids protocol subOps).tree (s, [])).2.2.2
    (∀ e ∈ log, e.rc = Rc.success) →
    ((calls.map (·.1)).count (nodeOf (tokens topic)) =
      (if (nodeOf (tokens sub), leaf) ∈ normals log then 1 else 0) ↔
        ¬ Overlooked ops sub topic) := by
  intro calls log hfine
  have hne : sub ≠ [] := by
    rintro rfl
    cases hd
  have htok : subTopicTokenise sub = .ok (tokens sub, none) := by
    rw [subTopicTokenise_eq hne, if_neg hshare]
  obtain ⟨op, hop, rfl⟩ := mem_of_lastRetained hr
  obtain ⟨hpub, htd⟩ := hops op hop
  have hk := kept_retainRun hb fun op h => (hops op h).1
  -- the retained side
  have hcalls := (count_retainCalls env c subQos identifier hk hs htok).2 op.1
  simp only [hr, true_and] at hcalls
  -- the live side
  have hn : Named (SubWorld.run ids protocol subOps).tree := named_run hv
  have hl := (SubTree.isLeaf_iff hn.ok).mp hleaf
  have hlog : log = (searchRoot (logged send) ids sourceId (tokens op.1)
      (SubWorld.run ids protocol subOps).tree (s, [])).2.2.2 := by
    show (searchTopic (logged send) ids sourceId op.1 _ (s, [])).2.2.2 = _
    unfold searchTopic
    rw [hpub.tokenise]
  have hlive := count_searchRoot send ids sourceId hn s leaf (tokens_ne_nil op.1)
    (fun x hx => not_wildcard_of_mem_tokens hpub.2.1 hx)
    (SubTree.has_of_leaves (List.ne_nil_of_mem hl)) (hlog ▸ hfine)
  rw [← hlog, count_served hn.ok hl, hex] at hlive
  have hmem : (nodeOf (tokens sub), leaf) ∈ normals log ↔
      (tokens sub).headD [] = (tokens op.1).headD [] ∧ levelMatch (tokens sub) (tokens op.1) := by
    rw [← List.count_pos_iff, hlive]
    split
    · rename_i h
      exact ⟨fun _ => h, fun _ => Nat.one_pos⟩
    · rename_i h
      rw [Nat.zero_mul]
      exact ⟨fun h0 => absurd h0 (Nat.lt_irrefl 0), fun h' => absurd h' h⟩
  have hmissed := missed_iff_overlooked hk (fun op h => (hops op h).2) hd htd
  rw [hcalls, ← hmissed]
  simp only [← and_assoc, ← hmem]
  by_cases hm : (nodeOf (tokens sub), leaf) ∈ normals log <;>
    by_cases hx : Missed (childrenOf (retainRun ops b).retains) (tokens sub) 0
      [(tokens op.1).headD []] (tokens op.1) <;>
    simp [hm]

/-- With another topic below it, `$x` is found by `$x/#`. -/
theorem retained_agrees_two :
    let ops := [MsgStore.retainable 1 (ascii "$x") [1], MsgStore.retainable 2 (ascii "$x/y") [1]]
    let subOps := [SubOp.add 0 (ascii "$x/#") .q1 0 0]
    let calls := retainCalls Env.granting 0 (ascii "$x/#") .q1 0 (retainRun ops State.withClient)
    let log := (searchTopic (logged fun _ _ _ (s : Unit) => (Rc.success, s))
      (fun _ => some (ascii "c")) (ascii "p") (ascii "$x")
      (SubWorld.run (fun _ => some (ascii "c")) (fun _ => .mqtt5) subOps).tree ((), [])).2.2.2
    calls.map (·.2.addr) = [2, 1] ∧
    ((calls.map (·.1)).count (nodeOf (tokens (ascii "$x"))) =
      (if (nodeOf (tokens (ascii "$x/#")), newLeaf 0 .q1 0 0) ∈ normals log then 1 else 0) ↔
        ¬ Overlooked ops (ascii "$x/#") (ascii "$x")) :=
  ⟨by decide, retained_agrees_iff Env.granting 0 .q1 0 rfl (by decide) (by decide) (by decide)
    (by decide) _ _ _ (by decide) _
    ⟨⟨[newLeaf 0 .q1 0 0], []⟩, by decide, List.mem_cons_self⟩ (by decide) () (by decide)
    (by decide)⟩

/-- **A retained `$x` that stands alone is not given to a new subscriber of `$x/#`**, who
would get it if it were published now. -/
theorem retained_overlooked :
    let ops := [MsgStore.retainable 1 (ascii "$x") [1]]
    let subOps := [SubOp.add 0 (ascii "$x/#") .q1 0 0]
    let calls := retainCalls Env.granting 0 (ascii "$x/#") .q1 0 (retainRun ops State.withClient)
    let log := (searchTopic (logged fun _ _ _ (s : Unit) => (Rc.success, s))
      (fun _ => some (ascii "c")) (ascii "p") (ascii "$x")
      (SubWorld.run (fun _ => some (ascii "c")) (fun _ => .mqtt5) subOps).tree ((), [])).2.2.2
    (∀ e ∈ log, e.rc = Rc.success) ∧ (lastRetained ops (ascii "$x")).isSome = true ∧
      calls = [] ∧ (nodeOf (tokens (ascii "$x/#")), newLeaf 0 .q1 0 0) ∈ normals log := by
  decide

end AdaptiveMqtt.Broker
