import AdaptiveMqtt.Persist.Session

/-!
# Subscriptions through the file

`persist__subs_save` joins the levels on the way to a node, and `persist__restore_sub` has
`sub__add` split them again. The walk comes to every node with the filter that leads there
(`mem_persistSubsSaveAll`), so that every normal subscription of a client that is saved is back
at its node, with its options (`subscriptions_restored`).
-/

namespace AdaptiveMqtt.Persist

open Lib Packet Topic Db Broker AdaptiveMqtt.Sub

/-! ## Topics along the subscription tree -/

/-- The topic that `persist__subs_save` has below `topic` at the end of a path. -/
def walkTopic : Nat → Bytes → List Bytes → Bytes
  | _, topic, [] => topic
  | level, topic, l :: ls => walkTopic (level + 1) (thistopic topic level l) ls

theorem walkTopic_below {level : Nat} (h : level > 1) (topic : Bytes) (ls : List Bytes) :
    walkTopic level topic ls = topic ++ ls.flatMap (slash :: ·) := by
  induction ls generalizing level topic with
  | nil => exact (List.append_nil topic).symm
  | cons l ls ih =>
    rw [walkTopic, thistopic, if_pos (.inl h), ih (Nat.lt_succ_of_lt h), List.flatMap_cons,
      List.append_assoc]

theorem join_levels {s l : Bytes} {ls : List Bytes} (h : levels s = l :: ls) :
    l ++ ls.flatMap (slash :: ·) = s := by
  have hjoin : ∀ (ls : List Bytes) (l : Bytes),
      [slash].intercalate (l :: ls) = l ++ ls.flatMap (slash :: ·) := by
    intro ls
    induction ls with
    | nil => simp [List.intercalate]
    | cons l' ls ih =>
      intro l
      rw [List.intercalate_cons_cons, ih, List.flatMap_cons]
      simp
  rw [← hjoin, ← h]
  exact List.intercalate_splitOn slash

/-- **The walk finds the filters again.** -/
theorem walkTopic_tokens (s : Bytes) : walkTopic 0 [] (tokens s) = s := by
  unfold tokens
  obtain ⟨l, ls, hl⟩ := List.exists_cons_of_ne_nil (levels_ne_nil s)
  have hs := join_levels hl
  split
  · rename_i hd
    obtain ⟨l', hl'⟩ := (head_levels dollar (by decide)).mpr hd
    have hne : l ≠ [] := by
      rw [hl, List.head?_cons, Option.some.injEq] at hl'
      rw [hl']
      exact List.cons_ne_nil _ _
    have hfirst : thistopic [] 0 l = l := by simp [thistopic]
    rw [hl, walkTopic, hfirst]
    cases ls with
    | nil => simpa [walkTopic] using hs
    | cons l₂ ls =>
      rw [walkTopic, thistopic, if_pos (.inr hne), walkTopic_below (by omega), ← hs,
        List.flatMap_cons, List.append_assoc]
  · -- behind the empty root the first level has no slash in front
    have hroot : thistopic [] 0 [] = [] := by simp [thistopic]
    have hfirst : thistopic [] 1 l = l := by simp [thistopic]
    rw [hl, walkTopic, hroot, walkTopic, hfirst, walkTopic_below (by omega), hs]

section Walk

variable {b : State}

theorem mem_subChildren {node child : Path} (h : child ∈ subChildren b node) :
    ∃ l, child = node ++ [l] := by
  obtain ⟨-, hchild⟩ := List.mem_filter.mp h
  obtain ⟨hne, hparent⟩ := of_decide_eq_true hchild
  exact ⟨child.getLast hne, by rw [← hparent, List.dropLast_concat_getLast]⟩

theorem mem_persistSubsSave {fuel : Nat} : ∀ {node : Path} {l topic : Bytes} {level : Nat}
    {chunk : Chunk}, chunk ∈ persistSubsSave b fuel (node ++ [l]) topic level →
    ∃ ls leaf id, leaf ∈ b.subs.tree.leaves (node ++ l :: ls) none ∧
      savedId b leaf.context = some id ∧
      chunk = .sub (subChunk id (walkTopic level topic (l :: ls)) leaf) := by
  induction fuel with
  | zero => exact fun h => (nomatch h)
  | succ fuel ih =>
    intro node l topic level chunk h
    have hlast : (node ++ [l]).getLastD [] = l := by simp
    rw [persistSubsSave, hlast] at h
    rcases List.mem_append.mp h with h | h
    · obtain ⟨leaf, hleaf, hchunk⟩ := List.mem_filterMap.mp h
      obtain ⟨id, hid, rfl⟩ := Option.map_eq_some_iff.mp hchunk
      exact ⟨[], leaf, id, hleaf, hid, rfl⟩
    · obtain ⟨child, hchild, h⟩ := List.mem_flatMap.mp h
      obtain ⟨l', rfl⟩ := mem_subChildren hchild
      obtain ⟨ls, leaf, id, hleaf, hid, rfl⟩ := ih h
      rw [List.append_assoc, List.singleton_append] at hleaf
      exact ⟨l' :: ls, leaf, id, hleaf, hid, rfl⟩

theorem loaded_id {id : Bytes} (hid : id ≠ [] ∧ id.length ≤ 65535) :
    loaded (cstr id) (UInt16.ofNat id.length).toNat = some id := by
  rw [toNat_ofNat16 hid.2, loaded_cstr_of_ne hid.1]

/-- A normal subscription in the file: the id of its client, its filter and its leaf. -/
structure SavedSub where
  id : Bytes
  sub : Bytes
  leaf : SubLeaf

def SavedSub.chunk (e : SavedSub) : Chunk := .sub (subChunk e.id e.sub e.leaf)

def SavedSub.node (e : SavedSub) : Path := nodeOf (tokens e.sub)

/-- The leaf is at the node of the filter, and its client is saved. -/
structure IsSaved (b : State) (e : SavedSub) : Prop where
  check : mosquittoSubTopicCheck e.sub = Rc.success
  tokenise : subTopicTokenise e.sub = .ok (tokens e.sub, none)
  leaf : e.leaf ∈ b.subs.tree.leaves e.node none
  saved : savedId b e.leaf.context = some e.id

theorem IsSaved.sub_length {e : SavedSub} (he : IsSaved b e) :
    e.sub ≠ [] ∧ e.sub.length ≤ 65535 :=
  ⟨(tokens_of_not_shared he.tokenise).1, (mosquittoSubTopicCheck_ok he.check).2.1⟩

/-- A normal leaf has a filter. -/
theorem Named.isSaved (hn : Named b.subs.tree) {p : Path} {leaf : SubLeaf} {id : Bytes}
    (hleaf : leaf ∈ b.subs.tree.leaves p none) (hid : savedId b leaf.context = some id) :
    ∃ sub, p = nodeOf (tokens sub) ∧ IsSaved b ⟨id, sub, leaf⟩ := by
  obtain ⟨sub, topics, hcheck, htok, rfl⟩ := hn.leaf p none (List.ne_nil_of_mem hleaf)
  obtain ⟨-, rfl⟩ := tokens_of_not_shared htok
  exact ⟨sub, rfl, hcheck, htok, hleaf, hid⟩

/-- **Every chunk of the walk is that of a subscription.** -/
theorem mem_persistSubsSaveAll (hn : Named b.subs.tree) {chunk : Chunk}
    (h : chunk ∈ persistSubsSaveAll b) : ∃ e, IsSaved b e ∧ chunk = e.chunk := by
  obtain ⟨root, hroot, h⟩ := List.mem_flatMap.mp h
  obtain ⟨k, rfl⟩ := List.length_eq_one_iff.mp (of_decide_eq_true (List.mem_filter.mp hroot).2)
  split at h
  · cases h
  · rename_i child _ hchildren
    obtain ⟨l, rfl⟩ := mem_subChildren (hchildren ▸ List.mem_cons_self)
    obtain ⟨ls, leaf, id, hleaf, hid, rfl⟩ := mem_persistSubsSave h
    obtain ⟨sub, hnode, hsaved⟩ := Named.isSaved hn hleaf hid
    have htokens : l :: ls = tokens sub := (List.cons_eq_cons.mp hnode).2
    refine ⟨⟨id, sub, leaf⟩, hsaved, ?_⟩
    rw [htokens, walkTopic_tokens]
    rfl

/-! ## The walk comes to every node -/

theorem mem_subChildren_iff {node : Path} {l : Bytes} :
    node ++ [l] ∈ subChildren b node ↔ b.subs.tree.has (node ++ [l]) := by
  unfold subChildren
  rw [List.mem_filter, Heap.mem_keys_iff, ← SubTree.has_iff]
  simp

theorem mem_persistSubsSave_of_leaf (hok : b.subs.tree.Ok) {leaf : SubLeaf} {id : Bytes}
    (hid : savedId b leaf.context = some id) {ls : List Bytes} :
    ∀ {fuel : Nat} {node : Path} {l topic : Bytes} {level : Nat},
      leaf ∈ b.subs.tree.leaves (node ++ l :: ls) none → ls.length < fuel →
      .sub (subChunk id (walkTopic level topic (l :: ls)) leaf) ∈
        persistSubsSave b fuel (node ++ [l]) topic level := by
  induction ls with
  | nil =>
    intro fuel node l topic level hleaf hfuel
    obtain ⟨fuel, rfl⟩ : ∃ n, fuel = n + 1 := ⟨fuel - 1, by omega⟩
    have hlast : (node ++ [l]).getLastD [] = l := by simp
    rw [persistSubsSave, hlast]
    refine List.mem_append_left _ (List.mem_filterMap.mpr ⟨leaf, hleaf, ?_⟩)
    rw [hid]
    rfl
  | cons l' ls ih =>
    intro fuel node l topic level hleaf hfuel
    rw [List.length_cons] at hfuel
    obtain ⟨fuel, rfl⟩ : ∃ n, fuel = n + 1 := ⟨fuel - 1, by omega⟩
    have hlast : (node ++ [l]).getLastD [] = l := by simp
    have hsplit : node ++ l :: l' :: ls = (node ++ [l]) ++ l' :: ls := by simp
    rw [hsplit] at hleaf
    have hchild : b.subs.tree.has (node ++ [l] ++ [l']) := by
      refine hok.has_above (by simp) (r := ls) ?_
      rw [List.append_assoc, List.singleton_append]
      exact SubTree.has_of_leaves (List.ne_nil_of_mem hleaf)
    rw [persistSubsSave, hlast]
    refine List.mem_append_right _ (List.mem_flatMap.mpr ⟨_, mem_subChildren_iff.mpr hchild, ?_⟩)
    exact ih hleaf (by omega)

theorem subChildren_root (hn : Named b.subs.tree) {root : Bytes}
    (h : b.subs.tree.has [root, root]) : ∃ rest, subChildren b [root] = [root, root] :: rest := by
  have hall : ∀ child ∈ subChildren b [root], child = [root, root] := by
    intro child hchild
    obtain ⟨l, rfl⟩ := mem_subChildren hchild
    rcases hn.node _ (mem_subChildren_iff.mp hchild) with hlen | ⟨sub, topics, share, -, htok, hpre⟩
    · simp at hlen
    · unfold nodeOf at hpre
      obtain ⟨hroot, hpre⟩ := List.cons_prefix_cons.mp hpre
      cases topics with
      | nil => simp at hpre
      | cons x topics =>
        obtain ⟨hl, -⟩ := List.cons_prefix_cons.mp hpre
        have hx : root = x := hroot
        rw [hl, hx]
        rfl
  have hmem : [root, root] ∈ subChildren b [root] :=
    (show [root] ++ [root] ∈ subChildren b [root] from mem_subChildren_iff.mpr h)
  cases hc : subChildren b [root] with
  | nil =>
    rw [hc] at hmem
    cases hmem
  | cons child rest => exact ⟨rest, by rw [hall child (hc ▸ List.mem_cons_self)]⟩

/-- **Every subscription of a client that is saved has its chunk.** -/
theorem IsSaved.mem_persistSubsSaveAll (hn : Named b.subs.tree) {e : SavedSub} (he : IsSaved b e) :
    e.chunk ∈ persistSubsSaveAll b := by
  have hleaf := he.leaf
  unfold SavedSub.node nodeOf at hleaf
  obtain ⟨root, ls, hls⟩ := List.exists_cons_of_ne_nil (tokens_ne_nil e.sub)
  rw [hls, List.headD_cons] at hleaf
  have hhas : b.subs.tree.has ([root] ++ root :: ls) :=
    SubTree.has_of_leaves (List.ne_nil_of_mem hleaf)
  have hroot : b.subs.tree.has [root] := hn.ok.has_above (by simp) hhas
  have hchild : b.subs.tree.has [root, root] :=
    hn.ok.has_above (p := [root, root]) (r := ls) (by simp) hhas
  obtain ⟨rest, hrest⟩ := subChildren_root hn hchild
  have hfuel : (root :: ls).length ≤ b.subs.tree.nodes.keys.length := by
    refine Heap.length_le_keys _ [root] (root :: ls) fun i _ => ?_
    rw [Heap.mem_keys_iff, ← SubTree.has_iff]
    refine hn.ok.has_above (by simp) (r := (root :: ls).drop i) ?_
    rw [List.append_assoc, List.take_append_drop]
    exact hhas
  have hwalk : .sub (subChunk e.id (walkTopic 0 [] (root :: ls)) e.leaf) ∈
      persistSubsSave b b.subs.tree.nodes.keys.length ([root] ++ [root]) [] 0 :=
    mem_persistSubsSave_of_leaf hn.ok he.saved hleaf hfuel
  rw [← hls, walkTopic_tokens] at hwalk
  refine List.mem_flatMap.mpr ⟨[root], ?_, ?_⟩
  · rw [List.mem_filter, Heap.mem_keys_iff, ← SubTree.has_iff]
    exact ⟨hroot, rfl⟩
  · rw [hrest]
    exact hwalk

end Walk

/-! ## Restoring them -/

/-- Clients with leaves in one list have different ids. -/
def Apart (ids : CtxId → Option Bytes) (ls : List SubLeaf) : Prop :=
  ∀ l ∈ ls, ∀ l' ∈ ls, ids l.context = ids l'.context → ids l.context ≠ none →
    l.context = l'.context

section Apart

variable {ids : CtxId → Option Bytes} {protocol : CtxId → Protocol}

theorem apart_addLeaf {c : CtxId} {qos : Qos} {identifier : Nat} {options : UInt8}
    {ls : List SubLeaf} (h : Apart ids ls) :
    Apart ids (addLeaf ids c qos identifier options ls).2 := by
  unfold addLeaf
  split
  · exact h
  · rcases subAddLeaf_cases ids c qos identifier options ls with
      ⟨pre, leaf, post, rfl, -, -, hr⟩ | ⟨hno, hr⟩
    · -- the contexts are the same
      have hctx : ∀ l ∈ pre ++ { leaf with qos, identifier } :: post,
          ∃ l₀ ∈ pre ++ leaf :: post, l₀.context = l.context := by
        intro l hl
        rcases List.mem_append.mp hl with hl | hl
        · exact ⟨l, List.mem_append_left _ hl, rfl⟩
        · rcases List.mem_cons.mp hl with rfl | hl
          · exact ⟨leaf, by simp, rfl⟩
          · exact ⟨l, by simp [hl], rfl⟩
      rw [hr]
      intro l hl l' hl'
      obtain ⟨l₀, hl₀, he⟩ := hctx l hl
      obtain ⟨l₀', hl₀', he'⟩ := hctx l' hl'
      rw [← he, ← he']
      exact h l₀ hl₀ l₀' hl₀'
    · rw [hr]
      intro l hl l' hl' hids hne
      rcases List.mem_append.mp hl with hl | hl <;> rcases List.mem_append.mp hl' with hl' | hl'
      · exact h l hl l' hl' hids hne
      · obtain rfl := List.mem_singleton.mp hl'
        exact absurd ⟨hne, hids⟩ (hno l hl)
      · obtain rfl := List.mem_singleton.mp hl
        exact absurd ⟨hids ▸ hne, hids.symm⟩ (hno l' hl')
      · obtain rfl := List.mem_singleton.mp hl
        obtain rfl := List.mem_singleton.mp hl'
        rfl

/-- What `sub__add` and `sub__remove` keep of a leaf list holds in every run. -/
theorem leaves_run {P : List SubLeaf → Prop} (hnil : P []) {ops : List SubOp}
    (hv : ∀ op ∈ ops, op.Valid)
    (hadd : ∀ c sub qos identifier options ls, SubOp.add c sub qos identifier options ∈ ops →
      P ls → P (addLeaf ids c qos identifier options ls).2)
    (hremove : ∀ c ls, P ls → P (without c ls)) (p : Path) (s : Option Bytes) :
    P ((SubWorld.run ids protocol ops).tree.leaves p s) := by
  induction ops using List.reverseRecOn generalizing p s with
  | nil =>
    rw [show (SubWorld.run ids protocol []).tree = SubTree.dbOpen from rfl,
      SubTree.dbOpen_spec.2.2]
    exact hnil
  | append_singleton ops op ih =>
    have hlast : op ∈ ops ++ [op] := List.mem_append_right _ (List.mem_singleton.mpr rfl)
    have hop : op.Valid := hv op hlast
    have hops : ∀ op ∈ ops, op.Valid := fun op h => hv op (List.mem_append_left _ h)
    have hok : (SubWorld.run ids protocol ops).tree.Ok := (named_run hops).ok
    have ih := ih hops fun c sub qos identifier options ls h =>
      hadd c sub qos identifier options ls (List.mem_append_left _ h)
    have hstep : SubWorld.run ids protocol (ops ++ [op]) =
        (SubWorld.run ids protocol ops).step ids protocol op := by
      simp only [SubWorld.run, List.foldl_append, List.foldl_cons, List.foldl_nil]
    rw [hstep]
    generalize SubWorld.run ids protocol ops = w at ih hok ⊢
    cases op with
    | add c sub qos identifier options =>
      cases htok : subTopicTokenise sub with
      | error rc =>
        rw [(step_refused ids protocol c htok).1]
        exact ih p s
      | ok r =>
        obtain ⟨topics, share⟩ := r
        obtain ⟨-, -, hleaves, -⟩ := step_add ids protocol c qos identifier options hok htok
          (hop.length_le htok)
        rw [hleaves]
        split
        · exact hadd c sub qos identifier options _ hlast (ih _ _)
        · exact ih p s
    | remove c sub =>
      cases htok : subTopicTokenise sub with
      | error rc =>
        rw [(step_refused ids protocol c htok).2]
        exact ih p s
      | ok r =>
        obtain ⟨topics, share⟩ := r
        obtain ⟨-, -, hleaves, -⟩ := step_remove ids protocol c hok htok
        rw [hleaves]
        split
        · exact hremove c _ (ih _ _)
        · exact ih p s

theorem apart_run {ops : List SubOp} (hv : ∀ op ∈ ops, op.Valid) (p : Path) (s : Option Bytes) :
    Apart ids ((SubWorld.run ids protocol ops).tree.leaves p s) := by
  refine leaves_run (fun _ hl => (nomatch hl)) hv (fun _ _ _ _ _ _ _ => apart_addLeaf) ?_ p s
  intro c ls h l hl l' hl'
  exact h l (List.mem_of_mem_eraseP hl) l' (List.mem_of_mem_eraseP hl')

/-- The subscription identifier of a call is a `uint32_t`. -/
def SubOp.Sized : SubOp → Prop
  | .add _ _ _ identifier _ => identifier < 2 ^ 32
  | .remove _ _ => True

instance : (op : SubOp) → Decidable (SubOp.Sized op)
  | .add _ _ _ identifier _ => inferInstanceAs (Decidable (identifier < 2 ^ 32))
  | .remove _ _ => inferInstanceAs (Decidable True)

theorem sized_run {ops : List SubOp} (hv : ∀ op ∈ ops, op.Valid)
    (hsized : ∀ op ∈ ops, SubOp.Sized op) (p : Path) (s : Option Bytes) :
    ∀ l ∈ (SubWorld.run ids protocol ops).tree.leaves p s, l.identifier < 2 ^ 32 := by
  refine leaves_run (P := fun ls => ∀ l ∈ ls, l.identifier < 2 ^ 32) (fun _ hl => (nomatch hl)) hv
    (fun c sub qos identifier options ls hop h => ?_) (fun c ls h l hl => ?_) p s
  · have hid : identifier < 2 ^ 32 := hsized _ hop
    unfold addLeaf
    split
    · exact h
    · rcases subAddLeaf_cases ids c qos identifier options ls with
        ⟨pre, leaf, post, rfl, -, -, hr⟩ | ⟨-, hr⟩
      · rw [hr]
        intro l hl
        rcases List.mem_append.mp hl with hl | hl
        · exact h l (List.mem_append_left _ hl)
        · rcases List.mem_cons.mp hl with rfl | hl
          · exact hid
          · exact h l (by simp [hl])
      · rw [hr]
        intro l hl
        rcases List.mem_append.mp hl with hl | hl
        · exact h l hl
        · obtain rfl := List.mem_singleton.mp hl
          exact hid
  · exact h l (List.mem_of_mem_eraseP hl)

end Apart

/-- What is saved of a broker: ids that a chunk can hold, and one subscription for a client and a
filter. -/
structure SavableSubs (b : State) : Prop where
  named : Named b.subs.tree
  ids : ∀ c id, savedId b c = some id → id ≠ [] ∧ id.length ≤ 65535
  apart : ∀ p, Apart b.ids (b.subs.tree.leaves p none)
  sized : ∀ p, ∀ l ∈ b.subs.tree.leaves p none, l.identifier < 2 ^ 32

section Restore

variable {b b' : State} {e e' : SavedSub} {es : List SavedSub}

theorem savedId_ids {c : CtxId} {id : Bytes} (h : savedId b c = some id) : b.ids c = some id := by
  unfold savedId at h
  obtain ⟨ctx, hctx, hid⟩ := Option.bind_eq_some_iff.mp h
  split at hid
  · rw [State.ids, hctx]
    exact hid
  · cases hid

theorem IsSaved.eq (hb : SavableSubs b) (he : IsSaved b e) (he' : IsSaved b e') (hid : e.id = e'.id)
    (hnode : e.node = e'.node) : e = e' := by
  have hsub : e.sub = e'.sub := by
    have htokens : tokens e.sub = tokens e'.sub := (List.cons_eq_cons.mp hnode).2
    exact subTopicTokenise_inj (htokens ▸ he.tokenise) he'.tokenise
  have hleaf' : e'.leaf ∈ b.subs.tree.leaves e.node none := hnode ▸ he'.leaf
  have hids : b.ids e.leaf.context = b.ids e'.leaf.context := by
    rw [savedId_ids he.saved, savedId_ids he'.saved, hid]
  have hctx := hb.apart e.node e.leaf he.leaf e'.leaf hleaf' hids
    (by rw [savedId_ids he.saved]; exact Option.some_ne_none _)
  have hleaf : e.leaf = e'.leaf :=
    List.inj_on_of_nodup_map (hb.named.ok.once e.node none) he.leaf hleaf' hctx
  cases e
  cases e'
  simp only at hid hsub hleaf
  rw [hid, hsub, hleaf]

/-- The subscriptions `es` of `b` are restored in `b'`, and no others. -/
structure SubsFrom (es : List SavedSub) (b' : State) : Prop where
  tidy : Tidy b'
  leaves : ∀ p leaf', leaf' ∈ b'.subs.tree.leaves p none ↔ ∃ e ∈ es, p = e.node ∧
    b'.contextsById.get e.id = some leaf'.context ∧ leaf' = { e.leaf with context := leaf'.context }
  slots : ∀ e ∈ es, ∃ c, b'.contextsById.get e.id = some c ∧
    some ⟨e.node, none, e.sub⟩ ∈ b'.subs.subs c

theorem persistFindOrAddContext_keeps {id id' : Bytes} {lastMid : UInt16} {c : CtxId}
    (h : b.contextsById.get id' = some c) :
    (persistFindOrAddContext id lastMid b).2.contextsById.get id' = some c := by
  unfold persistFindOrAddContext
  cases hid : b.contextsById.get id with
  | some c' =>
    simp only
    split <;> exact h
  | none =>
    have hne : id' ≠ id := by
      rintro rfl
      rw [hid] at h
      cases h
    have hset : (b.contextsById.set id b.nextContext).get id' = some c := by
      rw [Heap.get_set_ne _ _ hne]
      exact h
    simp only
    split <;> exact hset

/-- A context is found or made for a client. -/
theorem SubsFrom.findOrAdd (h : SubsFrom es b') (id : Bytes) :
    SubsFrom es (persistFindOrAddContext id 0 b').2 := by
  have hf := persistFindOrAddContext_found h.tidy id 0
  refine ⟨hf.tidy, fun p leaf' => ?_, fun e he => ?_⟩
  · rw [hf.subs, h.leaves]
    refine exists_congr fun e => and_congr_right fun he => and_congr_right fun _ =>
      and_congr_left fun _ => ?_
    obtain ⟨c, hc, -⟩ := h.slots e he
    rw [hc, persistFindOrAddContext_keeps hc]
  · obtain ⟨c, hc, hslot⟩ := h.slots e he
    refine ⟨c, persistFindOrAddContext_keeps hc, ?_⟩
    rw [hf.subs]
    exact hslot

theorem mem_takeSlot_self (csub : ClientSub) (subs : List (Option ClientSub)) :
    some csub ∈ takeSlot csub subs := by
  induction subs with
  | nil => exact List.mem_singleton.mpr rfl
  | cons a subs ih =>
    cases a with
    | none => exact List.mem_cons_self
    | some x => exact List.mem_cons_of_mem _ ih

theorem mem_takeSlot_of_mem {csub x : ClientSub} {subs : List (Option ClientSub)}
    (h : some x ∈ subs) : some x ∈ takeSlot csub subs := by
  induction subs with
  | nil => cases h
  | cons a subs ih =>
    cases a with
    | none =>
      rcases List.mem_cons.mp h with h | h
      · cases h
      · exact List.mem_cons_of_mem _ h
    | some y =>
      rcases List.mem_cons.mp h with h | h
      · rw [h]
        exact List.mem_cons_self
      · exact List.mem_cons_of_mem _ (ih h)

theorem newLeaf_options (leaf : SubLeaf) (c : CtxId) :
    newLeaf c leaf.qos leaf.identifier
      (leaf.noLocal.toUInt8 <<< 2 ||| leaf.retainAsPublished.toUInt8 <<< 3) =
      { leaf with context := c } := by
  have hbits : ∀ noLocal rap : Bool,
      decide ((noLocal.toUInt8 <<< 2 ||| rap.toUInt8 <<< 3) &&& 0x04 ≠ 0) = noLocal ∧
        decide ((noLocal.toUInt8 <<< 2 ||| rap.toUInt8 <<< 3) &&& 0x08 ≠ 0) = rap := by decide
  obtain ⟨hlocal, hrap⟩ := hbits leaf.noLocal leaf.retainAsPublished
  unfold newLeaf
  rw [hlocal, hrap]

/-- `sub__add` for a saved subscription: its leaf is there or is appended. -/
theorem SubsFrom.addLeaf_eq (hb : SavableSubs b) (h : SubsFrom es b')
    (hes : ∀ e ∈ es, IsSaved b e) (he : IsSaved b e) {c : CtxId}
    (hc : b'.contextsById.get e.id = some c) :
    let r := addLeaf b'.ids c e.leaf.qos e.leaf.identifier
      (e.leaf.noLocal.toUInt8 <<< 2 ||| e.leaf.retainAsPublished.toUInt8 <<< 3)
      (b'.subs.tree.leaves e.node none)
    (e ∈ es ∧ r = (Rc.subExists, b'.subs.tree.leaves e.node none)) ∨
      r = (Rc.success, b'.subs.tree.leaves e.node none ++ [{ e.leaf with context := c }]) := by
  intro r
  have hname : ∀ {id c}, b'.contextsById.get id = some c → b'.ids c = some id := by
    intro id c hid
    obtain ⟨ctx, hctx, hid'⟩ := h.tidy.byId id c hid
    rw [State.ids, hctx]
    exact hid'
  have hr : r = subAddLeaf b'.ids c e.leaf.qos e.leaf.identifier
      (e.leaf.noLocal.toUInt8 <<< 2 ||| e.leaf.retainAsPublished.toUInt8 <<< 3)
      (b'.subs.tree.leaves e.node none) := by
    refine if_neg ?_
    rw [hname hc]
    exact Option.some_ne_none _
  rcases subAddLeaf_cases b'.ids c e.leaf.qos e.leaf.identifier
    (e.leaf.noLocal.toUInt8 <<< 2 ||| e.leaf.retainAsPublished.toUInt8 <<< 3)
    (b'.subs.tree.leaves e.node none) with ⟨pre, x, post, hls, hsame, -, hadd⟩ | ⟨-, hadd⟩
  · -- the leaf of this client at this node is that of the same subscription
    obtain ⟨e', he', hnode, hc', hx⟩ := (h.leaves e.node x).mp (by rw [hls]; simp)
    have hid : e.id = e'.id := by
      have := hsame.2
      rw [hname hc, hname hc'] at this
      exact (Option.some.inj this).symm
    obtain rfl := he.eq hb (hes e' he') hid hnode
    have hupdate : { x with qos := e.leaf.qos, identifier := e.leaf.identifier } = x := by
      rw [hx]
    refine .inl ⟨he', ?_⟩
    rw [hr, hadd, hupdate, ← hls]
  · refine .inr ?_
    rw [hr, hadd, newLeaf_options]

theorem loaded_chunk (hb : SavableSubs b) (he : IsSaved b e) :
    (subChunk e.id e.sub e.leaf).loaded.clientId = some e.id ∧
      (subChunk e.id e.sub e.leaf).loaded.topic = some e.sub ∧
      qosOf (subChunk e.id e.sub e.leaf).loaded.F.qos = e.leaf.qos ∧
      (subChunk e.id e.sub e.leaf).loaded.F.identifier.toNat = e.leaf.identifier := by
  refine ⟨loaded_id (hb.ids _ _ he.saved), loaded_id he.sub_length, qosOf_qosByte _, ?_⟩
  have hlt := hb.sized _ e.leaf he.leaf
  show (UInt32.ofNat e.leaf.identifier).toNat = e.leaf.identifier
  rw [UInt32.toNat_ofNat']
  exact Nat.mod_eq_of_lt hlt

/-- **One subscription is restored.** -/
theorem SubsFrom.step (hb : SavableSubs b) {r : Restoring} (h : SubsFrom es r.world.broker)
    (hes : ∀ e ∈ es, IsSaved b e) (he : IsSaved b e) (listeners : Listeners) :
    ∃ r', restoreChunk listeners e.chunk r = .ok r' ∧ SubsFrom (e :: es) r'.world.broker := by
  obtain ⟨hid, hsub, hqos, hident⟩ := loaded_chunk hb he
  have hlevels : ∀ l ∈ tokens e.sub, l.length ≤ 65535 := fun l hl =>
    (length_le_of_mem_topics he.tokenise hl).trans he.sub_length.2
  have hf := persistFindOrAddContext_found h.tidy e.id 0
  have h := h.findOrAdd e.id
  show ∃ r', persistRestoreSub (subChunk e.id e.sub e.leaf).loaded r = .ok r' ∧ _
  unfold persistRestoreSub
  rw [hid, hsub, hqos, hident]
  simp only
  generalize persistFindOrAddContext e.id 0 r.world.broker = p at hf h ⊢
  obtain ⟨c, b₁⟩ := p
  simp only at hf h ⊢
  obtain ⟨ctx, hctx, -⟩ := h.tidy.byId e.id c hf.get
  have hproto : ((b₁.contexts.get c).map (·.protocol)).getD .invalid = .invalid := by
    rw [hctx]
    exact h.tidy.protocol c ctx hctx
  have hrc := @subAdd_success b₁.ids c e.sub (tokens e.sub) e.leaf.qos e.leaf.identifier
    (subChunk e.id e.sub e.leaf).loaded.F.options ⟨b₁.subs.tree, b₁.subs.subs c⟩
    h.tidy.tree he.tokenise hlevels
  obtain ⟨hok, -, hleaves, hsubs⟩ := subAdd_spec b₁.ids c .invalid e.leaf.qos e.leaf.identifier
    (subChunk e.id e.sub e.leaf).loaded.F.options ⟨b₁.subs.tree, b₁.subs.subs c⟩
    h.tidy.tree he.tokenise hlevels
  rw [hproto, hrc, if_neg (by decide)]
  have hadd := h.addLeaf_eq hb hes he hf.get
  change (e ∈ es ∧ addLeaf b₁.ids c e.leaf.qos e.leaf.identifier
    (subChunk e.id e.sub e.leaf).loaded.F.options (b₁.subs.tree.leaves (nodeOf (tokens e.sub)) none)
      = _) ∨ addLeaf b₁.ids c e.leaf.qos e.leaf.identifier
    (subChunk e.id e.sub e.leaf).loaded.F.options (b₁.subs.tree.leaves (nodeOf (tokens e.sub)) none)
      = _ at hadd
  refine ⟨_, rfl, ⟨h.tidy.byId, h.tidy.allocated, h.tidy.protocol, hok, fun p name => ?_⟩,
    fun p leaf' => ?_, fun e' he' => ?_⟩
  · show SubTree.leaves _ p (some name) = []
    rw [hleaves, if_neg fun h => by cases h.2]
    exact h.tidy.unshared p name
  · show leaf' ∈ SubTree.leaves _ p none ↔ _
    rw [hleaves, List.exists_mem_cons_iff]
    have hold := h.leaves p leaf'
    by_cases hp : p = e.node
    · rw [if_pos ⟨hp, rfl⟩]
      subst hp
      rcases hadd with ⟨hmem, hr⟩ | hr
      · rw [hr, hold]
        exact ⟨.inr, fun h => h.elim (fun h => ⟨e, hmem, h⟩) id⟩
      · rw [hr, List.mem_append, List.mem_singleton, hold, or_comm]
        refine or_congr_left ⟨?_, ?_⟩
        · rintro rfl
          exact ⟨rfl, hf.get, rfl⟩
        · rintro ⟨-, hc, hleaf⟩
          obtain rfl := Option.some.inj (hf.get.symm.trans hc)
          exact hleaf
    · rw [if_neg fun h => hp h.1, hold]
      exact ⟨.inr, fun h => h.elim (fun h => absurd h.1 hp) id⟩
  · show ∃ c', b₁.contextsById.get e'.id = some c' ∧ _ ∈ Function.update b₁.subs.subs c _ c'
    -- the slots that were taken stay
    have hkeep : ∀ c' x, some x ∈ b₁.subs.subs c' → some x ∈ Function.update b₁.subs.subs c
        (subAdd b₁.ids c .invalid e.sub e.leaf.qos e.leaf.identifier
          (subChunk e.id e.sub e.leaf).loaded.F.options ⟨b₁.subs.tree, b₁.subs.subs c⟩).2.subs c' := by
      intro c' x hx
      by_cases hc' : c' = c
      · subst hc'
        rw [Function.update_self, hsubs]
        split
        · exact mem_takeSlot_of_mem hx
        · exact hx
      · rw [Function.update_of_ne hc']
        exact hx
    have hkept : ∀ e' ∈ es, ∃ c', b₁.contextsById.get e'.id = some c' ∧
        some ⟨e'.node, none, e'.sub⟩ ∈ Function.update b₁.subs.subs c
          (subAdd b₁.ids c .invalid e.sub e.leaf.qos e.leaf.identifier
            (subChunk e.id e.sub e.leaf).loaded.F.options
            ⟨b₁.subs.tree, b₁.subs.subs c⟩).2.subs c' := by
      intro e' he'
      obtain ⟨c', hc', hslot⟩ := h.slots e' he'
      exact ⟨c', hc', hkeep c' _ hslot⟩
    rcases List.mem_cons.mp he' with rfl | he'
    · rcases hadd with ⟨hmem, -⟩ | hr
      · exact hkept e' hmem
      · refine ⟨c, hf.get, ?_⟩
        rw [Function.update_self, hsubs]
        simp only
        have hnew : Rc.success ≠ Rc.subExists := by decide
        rw [hr, if_pos hnew]
        exact mem_takeSlot_self _ _
    · exact hkept e' he'

theorem restore_subs (hb : SavableSubs b) (listeners : Listeners) (todo : List SavedSub) :
    ∀ {es : List SavedSub} {r : Restoring}, SubsFrom es r.world.broker →
      (∀ e ∈ es, IsSaved b e) → (∀ e ∈ todo, IsSaved b e) →
      ∃ r', (todo.map SavedSub.chunk).foldlM (fun r chunk => restoreChunk listeners chunk r) r =
        .ok r' ∧ SubsFrom (todo.reverse ++ es) r'.world.broker := by
  induction todo with
  | nil => exact fun h _ _ => ⟨_, rfl, h⟩
  | cons e todo ih =>
    intro es r h hes htodo
    obtain ⟨he, htodo⟩ := List.forall_mem_cons.mp htodo
    obtain ⟨r₁, hr₁, hstep⟩ := h.step hb hes he listeners
    obtain ⟨r', hr', hdone⟩ := ih hstep (List.forall_mem_cons.mpr ⟨he, hes⟩) htodo
    refine ⟨r', ?_, ?_⟩
    · rw [List.map_cons, List.foldlM_cons, hr₁]
      exact hr'
    · rw [List.reverse_cons, List.append_assoc, List.singleton_append]
      exact hdone

theorem IsSaved.chunk_inj (hb : SavableSubs b) (he : IsSaved b e) (he' : IsSaved b e')
    (h : e.chunk = e'.chunk) : e = e' := by
  obtain ⟨hid, hsub, -, -⟩ := loaded_chunk hb he
  obtain ⟨hid', hsub', -, -⟩ := loaded_chunk hb he'
  have hchunk : subChunk e.id e.sub e.leaf = subChunk e'.id e'.sub e'.leaf := by
    injection h
  rw [hchunk, hid'] at hid
  rw [hchunk, hsub'] at hsub
  refine he.eq hb he' (Option.some.inj hid).symm ?_
  unfold SavedSub.node
  rw [Option.some.inj hsub]

/-- The chunks of the walk are those of the subscriptions that are saved. -/
theorem persistSubsSaveAll_eq (hb : SavableSubs b) :
    ∃ es : List SavedSub, persistSubsSaveAll b = es.map SavedSub.chunk ∧ ∀ e, e ∈ es ↔ IsSaved b e := by
  have hmap : ∀ chunks : List Chunk, (∀ chunk ∈ chunks, ∃ e, IsSaved b e ∧ chunk = e.chunk) →
      ∃ es : List SavedSub, chunks = es.map SavedSub.chunk ∧ ∀ e ∈ es, IsSaved b e := by
    intro chunks
    induction chunks with
    | nil => exact fun _ => ⟨[], rfl, fun _ h => (nomatch h)⟩
    | cons chunk chunks ih =>
      intro h
      obtain ⟨⟨e, he, rfl⟩, hrest⟩ := List.forall_mem_cons.mp h
      obtain ⟨es, rfl, hes⟩ := ih hrest
      exact ⟨e :: es, rfl, List.forall_mem_cons.mpr ⟨he, hes⟩⟩
  obtain ⟨es, hes, hsaved⟩ := hmap _ fun _ => mem_persistSubsSaveAll hb.named
  refine ⟨es, hes, fun e => ⟨hsaved e, fun he => ?_⟩⟩
  have hmem := he.mem_persistSubsSaveAll hb.named
  rw [hes] at hmem
  obtain ⟨e', he', heq⟩ := List.mem_map.mp hmem
  obtain rfl := (hsaved e' he').chunk_inj hb he heq
  exact he'

/-- The normal subscriptions of the clients of `b` that are saved are those of `b'`: each has its
node, its client by its id, its filter and its options. -/
structure SubsKept (b b' : State) : Prop where
  kept : ∀ p leaf id, b.subs.tree.IsLeaf p none leaf → savedId b leaf.context = some id →
    ∃ c sub topics, b'.contextsById.get id = some c ∧ b'.ids c = some id ∧
      b'.subs.tree.IsLeaf p none { leaf with context := c } ∧
      subTopicTokenise sub = .ok (topics, none) ∧ p = nodeOf topics ∧
      some ⟨p, none, sub⟩ ∈ b'.subs.subs c
  only : ∀ p leaf', b'.subs.tree.IsLeaf p none leaf' → ∃ leaf id,
    b.subs.tree.IsLeaf p none leaf ∧ savedId b leaf.context = some id ∧
      b'.contextsById.get id = some leaf'.context ∧
      leaf' = { leaf with context := leaf'.context }

theorem SubsFrom.kept (hb : SavableSubs b) (hes : ∀ e, e ∈ es ↔ IsSaved b e)
    (h : SubsFrom es b') : SubsKept b b' where
  kept p leaf id hleaf hid := by
    rw [SubTree.isLeaf_iff hb.named.ok] at hleaf
    obtain ⟨sub, rfl, he⟩ := Named.isSaved hb.named hleaf hid
    obtain ⟨c, hc, hslot⟩ := h.slots _ ((hes _).mpr he)
    obtain ⟨ctx, hctx, hname⟩ := h.tidy.byId id c hc
    refine ⟨c, sub, tokens sub, hc, ?_, ?_, he.tokenise, rfl, hslot⟩
    · rw [State.ids, hctx]
      exact hname
    · rw [SubTree.isLeaf_iff h.tidy.tree]
      exact (h.leaves _ _).mpr ⟨_, (hes _).mpr he, rfl, hc, rfl⟩
  only p leaf' hleaf := by
    rw [SubTree.isLeaf_iff h.tidy.tree] at hleaf
    obtain ⟨e, he, rfl, hc, heq⟩ := (h.leaves p leaf').mp hleaf
    have hsaved := (hes e).mp he
    exact ⟨e.leaf, e.id, (SubTree.isLeaf_iff hb.named.ok).mpr hsaved.leaf, hsaved.saved, hc, heq⟩

/-- **Normal subscriptions come through the file**: those of any tree that `sub__add` and
`sub__remove` build, restored into a broker without normal subscriptions. -/
theorem subscriptions_restored (b : State) (protocol : CtxId → Protocol) (ops : List SubOp)
    (hv : ∀ op ∈ ops, op.Valid) (hsized : ∀ op ∈ ops, SubOp.Sized op)
    (hrun : b.subs = SubWorld.run b.ids protocol ops)
    (hids : ∀ c id, savedId b c = some id → id ≠ [] ∧ id.length ≤ 65535)
    (host : ByteOrder) (listeners : Listeners) (r : Restoring) (htidy : Tidy r.world.broker)
    (hempty : ∀ p, r.world.broker.subs.tree.leaves p none = []) :
    ∃ parts r', (persistSubsSaveAll b).mapM (Chunk.write host) = .ok parts ∧
      restoreLoop host listeners 6 parts.flatten.length parts.flatten r = .ok r' ∧
      SubsKept b r'.world.broker := by
  have hb : SavableSubs b := by
    refine ⟨?_, hids, fun p => ?_, fun p => ?_⟩
    · rw [hrun]
      exact named_run hv
    · rw [hrun]
      exact apart_run hv p none
    · rw [hrun]
      exact sized_run hv hsized p none
  obtain ⟨es, hes, hsaved⟩ := persistSubsSaveAll_eq hb
  have hreadable : ∀ chunk ∈ persistSubsSaveAll b, chunk.Readable := by
    intro chunk h
    obtain ⟨e, -, rfl⟩ := mem_persistSubsSaveAll hb.named h
    trivial
  obtain ⟨parts, hparts, hlen, hloop⟩ := @restoreLoop_chunks host listeners _ hreadable
  have hnone : SubsFrom [] r.world.broker := by
    refine ⟨htidy, fun p leaf' => ?_, fun e he => (nomatch he)⟩
    rw [hempty]
    simp
  obtain ⟨r', hr', hdone⟩ := restore_subs hb listeners es hnone (fun e he => (nomatch he))
    fun e he => (hsaved e).mp he
  refine ⟨parts, r', hparts, ?_, hdone.kept hb fun e => ?_⟩
  · rw [hloop _ r hlen, hes]
    exact hr'
  · rw [List.append_nil, List.mem_reverse]
    exact hsaved e

end Restore

/-- A broker with one client that is saved, after some calls. -/
def State.subscribed (ops : List SubOp) : State :=
  let b := { State.dbOpen Config.init fun _ => ⟨0, 0, 0⟩ with
    contexts := Heap.set ∅ 0 { Context.init Config.init none with
      id := some (ascii "c"), cleanStart := false } }
  { b with subs := SubWorld.run b.ids (fun _ => .mqtt5) ops }

/-- The filter `/a/` with all its options. -/
theorem subscriptions_restored_slashes :
    let b := State.subscribed [.add 0 (ascii "/a/") .q1 7 0x0C]
    ∃ parts r', (persistSubsSaveAll b).mapM (Chunk.write .little) = .ok parts ∧
      restoreLoop .little ⟨false, [1883]⟩ 6 parts.flatten.length parts.flatten
        ⟨World.dbOpen Config.init fun _ => ⟨0, 0, 0⟩, ∅⟩ = .ok r' ∧
      SubsKept b r'.world.broker := by
  intro b
  refine subscriptions_restored b (fun _ => .mqtt5) [.add 0 (ascii "/a/") .q1 7 0x0C] ?_ ?_ rfl
    (fun c id h => ?_) .little ⟨false, [1883]⟩ _ (tidy_dbOpen _ _) fun p =>
      SubTree.dbOpen_spec.2.2 p none
  · decide
  · decide
  · obtain ⟨ctx, hctx, hid⟩ := Option.bind_eq_some_iff.mp h
    obtain ⟨rfl, rfl⟩ := Heap.get_set_empty hctx
    obtain rfl : ascii "c" = id := Option.some.inj hid
    exact ⟨by decide, by decide⟩

end AdaptiveMqtt.Persist
