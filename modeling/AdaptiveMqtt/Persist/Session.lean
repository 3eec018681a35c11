import AdaptiveMqtt.Persist.Restore
import AdaptiveMqtt.Sub.Deliver

/-!
# Sessions through the file

The messages of a session while `persist__restore` reads its chunks. The stores of the file come
first and are found by their ids (`restore_stores`). Every other chunk adds at most one message
to one session (`restoreChunk_step`), so that a session has the messages of its chunks in the
end (`restore_chunks`). No chunk makes a shared subscription.
-/

namespace AdaptiveMqtt.Persist

open Lib Packet Topic Db Broker AdaptiveMqtt.Sub

/-! ## Sessions -/

/-- The context of an id. -/
def session (b : State) (id : Bytes) : Option Context :=
  (b.contextsById.get id).bind b.contexts.get

def outgoing (ctx : Context) : List ClientMsg :=
  ctx.msgsOut.inflight ++ ctx.msgsOut.queued ++ ctx.msgsOut.storage

/-- What a client gets of a message. -/
structure Content where
  mid : UInt16
  qos : Qos
  topic : Bytes
  payload : Bytes
  storeProperties : List Property
  properties : List Property
  deriving DecidableEq, Repr

def contentOf (store : MsgStore) (mid : UInt16) (qos : Qos) (properties : List Property) : Content :=
  ⟨mid, qos, store.topic, store.payload, store.properties, properties⟩

def content (msg : ClientMsg) : Content := contentOf msg.store msg.mid msg.qos msg.properties

/-- The outgoing messages of an id. -/
def contents (b : State) (id : Bytes) : List Content :=
  (session b id).elim [] fun ctx => (outgoing ctx).map content

/-- What holds of a broker while it is restored. -/
structure Tidy (b : State) : Prop where
  byId : ∀ id c, b.contextsById.get id = some c → ∃ ctx, b.contexts.get c = some ctx ∧
    ctx.id = some id
  allocated : ∀ c ctx, b.contexts.get c = some ctx → c < b.nextContext
  protocol : ∀ c ctx, b.contexts.get c = some ctx → ctx.protocol = .invalid
  tree : b.subs.tree.Ok
  unshared : ∀ p name, b.subs.tree.leaves p (some name) = []

section Tidy

variable {b b' : State} {id id' : Bytes} {c : CtxId} {ctx : Context}

structure SameClients (b b' : State) : Prop where
  contexts : b'.contexts = b.contexts
  contextsById : b'.contextsById = b.contextsById
  nextContext : b'.nextContext = b.nextContext
  subs : b'.subs = b.subs

theorem SameClients.trans {b'' : State} (h : SameClients b b') (h' : SameClients b' b'') :
    SameClients b b'' :=
  ⟨h'.contexts.trans h.contexts, h'.contextsById.trans h.contextsById,
    h'.nextContext.trans h.nextContext, h'.subs.trans h.subs⟩

theorem SameClients.tidy (h : SameClients b b') (hb : Tidy b) : Tidy b' := by
  obtain ⟨h₁, h₂, h₃, h₄⟩ := h
  refine ⟨?_, ?_, ?_, ?_, ?_⟩
  · rw [h₁, h₂]
    exact hb.byId
  · rw [h₁, h₃]
    exact hb.allocated
  · rw [h₁]
    exact hb.protocol
  · rw [h₄]
    exact hb.tree
  · rw [h₄]
    exact hb.unshared

theorem SameClients.contents (h : SameClients b b') (id : Bytes) :
    Persist.contents b' id = Persist.contents b id := by
  rw [Persist.contents, Persist.contents, session, session, h.contexts, h.contextsById]

theorem tidy_dbOpen (config : Config) (clock : Nat → Reading) : Tidy (State.dbOpen config clock) := by
  obtain ⟨hok, -, hleaves⟩ := SubTree.dbOpen_spec
  exact ⟨fun _ _ h => (nomatch h), fun _ _ h => (nomatch h), fun _ _ h => (nomatch h), hok,
    fun p name => hleaves p (some name)⟩

/-- Ids that share a context are one. -/
theorem Tidy.byId_inj (hb : Tidy b) (h : b.contextsById.get id = some c)
    (h' : b.contextsById.get id' = some c) : id = id' := by
  obtain ⟨ctx, hctx, hid⟩ := hb.byId id c h
  obtain ⟨ctx', hctx', hid'⟩ := hb.byId id' c h'
  rw [hctx] at hctx'
  cases hctx'
  rw [hid] at hid'
  exact Option.some.inj hid'

/-- Writing to the context of an id. -/
theorem Tidy.modifyClient (hb : Tidy b) (hc : b.contextsById.get id = some c) {f : Context → Context}
    (hid : ∀ ctx, (f ctx).id = ctx.id) (hproto : ∀ ctx, (f ctx).protocol = ctx.protocol) :
    Tidy (b.modifyClient c f) ∧
      session (b.modifyClient c f) id = (session b id).map f ∧
      ∀ id', id' ≠ id → session (b.modifyClient c f) id' = session b id' := by
  have hget : ∀ c', (b.modifyClient c f).contexts.get c' =
      if c' = c then (b.contexts.get c).map f else b.contexts.get c' :=
    fun c' => Heap.get_modify b.contexts c c' f
  -- a context of the new heap comes from one of the old heap
  have hold : ∀ c' ctx', (b.modifyClient c f).contexts.get c' = some ctx' →
      ∃ ctx, b.contexts.get c' = some ctx ∧ ctx'.id = ctx.id ∧ ctx'.protocol = ctx.protocol := by
    intro c' ctx' h
    rw [hget] at h
    split at h
    · rename_i he
      obtain ⟨ctx, hctx, rfl⟩ := Option.map_eq_some_iff.mp h
      exact ⟨ctx, he ▸ hctx, hid ctx, hproto ctx⟩
    · exact ⟨ctx', h, rfl, rfl⟩
  refine ⟨⟨fun id' c' h => ?_, fun c' ctx' h => ?_, fun c' ctx' h => ?_, hb.tree, hb.unshared⟩,
    ?_, fun id' hne => ?_⟩
  · obtain ⟨ctx, hctx, hname⟩ := hb.byId id' c' h
    rw [hget]
    split
    · rename_i he
      subst he
      exact ⟨f ctx, by rw [hctx, Option.map_some], (hid ctx).trans hname⟩
    · exact ⟨ctx, hctx, hname⟩
  · obtain ⟨ctx, hctx, -⟩ := hold c' ctx' h
    exact hb.allocated c' ctx hctx
  · obtain ⟨ctx, hctx, -, hsame⟩ := hold c' ctx' h
    exact hsame.trans (hb.protocol c' ctx hctx)
  · have hsession : session (b.modifyClient c f) id = (b.modifyClient c f).contexts.get c := by
      show (b.contextsById.get id).bind _ = _
      rw [hc]
      rfl
    rw [hsession, hget, if_pos rfl, session, hc]
    rfl
  · show (b.contextsById.get id').bind _ = (b.contextsById.get id').bind _
    cases hc' : b.contextsById.get id' with
    | none => rfl
    | some c' =>
      have hne' : c' ≠ c := fun he => hne (hb.byId_inj (he ▸ hc') hc)
      show (b.modifyClient c f).contexts.get c' = b.contexts.get c'
      rw [hget, if_neg hne']

/-- Writing to the context of an id, but not to its outgoing messages. -/
theorem Tidy.modifyClient_contents (hb : Tidy b) (hc : b.contextsById.get id = some c)
    {f : Context → Context} (hid : ∀ ctx, (f ctx).id = ctx.id)
    (hproto : ∀ ctx, (f ctx).protocol = ctx.protocol)
    (hout : ∀ ctx, outgoing (f ctx) = outgoing ctx) :
    Tidy (b.modifyClient c f) ∧ ∀ id', contents (b.modifyClient c f) id' = contents b id' := by
  obtain ⟨htidy, hsame, hother⟩ := hb.modifyClient hc hid hproto
  refine ⟨htidy, fun id' => ?_⟩
  unfold contents
  by_cases he : id' = id
  · subst he
    rw [hsame]
    cases session b id' with
    | none => rfl
    | some ctx =>
      show (outgoing (f ctx)).map content = (outgoing ctx).map content
      rw [hout]
  · rw [hother id' he]

structure Found (b b' : State) (id : Bytes) (c : CtxId) : Prop where
  tidy : Tidy b'
  get : b'.contextsById.get id = some c
  contents : ∀ id', contents b' id' = contents b id'
  db : b'.db = b.db
  subs : b'.subs = b.subs

theorem found_new (hb : Tidy b) (hnew : b.contextsById.get id = none) :
    Found b { b with
      contexts := b.contexts.set b.nextContext
        { Context.init b.db.config none with id := some id, cleanStart := false }
      contextsById := b.contextsById.set id b.nextContext
      nextContext := b.nextContext + 1 } id b.nextContext := by
  have hfree : ∀ c ctx, b.contexts.get c = some ctx → c ≠ b.nextContext := fun c ctx h =>
    Nat.ne_of_lt (hb.allocated c ctx h)
  refine ⟨⟨fun id' c h => ?_, fun c ctx h => ?_, fun c ctx h => ?_, hb.tree, hb.unshared⟩,
    Heap.get_set_self _ _ _, fun id' => ?_, rfl, rfl⟩
  · simp only [Heap.get_set] at h ⊢
    split at h
    · rename_i he
      cases h
      exact ⟨_, if_pos rfl, congrArg some he.symm⟩
    · obtain ⟨ctx, hctx, hid⟩ := hb.byId id' c h
      exact ⟨ctx, by rw [if_neg (hfree c ctx hctx), hctx], hid⟩
  · simp only [Heap.get_set] at h
    split at h
    · rename_i he
      exact he ▸ Nat.lt_succ_self _
    · exact Nat.lt_succ_of_lt (hb.allocated c ctx h)
  · simp only [Heap.get_set] at h
    split at h
    · cases h
      rfl
    · exact hb.protocol c ctx h
  · simp only [contents, session, Heap.get_set]
    by_cases he : id' = id
    · subst he
      rw [if_pos rfl, hnew]
      show (Option.elim (if b.nextContext = b.nextContext then _ else _) _ _ : List Content) = []
      rw [if_pos rfl]
      rfl
    · rw [if_neg he]
      cases hc : b.contextsById.get id' with
      | none => rfl
      | some c =>
        obtain ⟨ctx, hctx, -⟩ := hb.byId id' c hc
        show Option.elim (if c = b.nextContext then _ else _) _ _ = _
        rw [if_neg (hfree c ctx hctx)]
        rfl

theorem persistFindOrAddContext_found (hb : Tidy b) (id : Bytes) (lastMid : UInt16) :
    Found b (persistFindOrAddContext id lastMid b).2 id (persistFindOrAddContext id lastMid b).1 := by
  -- the context before its mid is set
  have hmid : ∀ {b₁ : State} {c : CtxId}, Found b b₁ id c →
      Found b (if lastMid ≠ 0 then b₁.modifyClient c fun ctx => { ctx with lastMid } else b₁) id c := by
    intro b₁ c h
    split
    · obtain ⟨htidy, hsame⟩ := h.tidy.modifyClient_contents h.get
        (f := fun ctx => { ctx with lastMid }) (fun _ => rfl) (fun _ => rfl) (fun _ => rfl)
      exact ⟨htidy, h.get, fun id' => (hsame id').trans (h.contents id'), h.db, h.subs⟩
    · exact h
  unfold persistFindOrAddContext
  cases hc : b.contextsById.get id with
  | none => exact hmid (found_new hb hc)
  | some c => exact hmid ⟨hb, hc, fun _ => rfl, rfl, rfl⟩

end Tidy

/-! ## One chunk -/

/-- What a chunk adds to the messages of an id. -/
def added (load : Heap UInt64 MsgStore) (id : Bytes) : Chunk → List Content
  | .clientMsg chunk =>
    if chunk.loaded.clientId = some id ∧ chunk.F.direction = 1 then
      (load.get chunk.F.storeId).elim [] fun store =>
        [contentOf store chunk.F.mid (qosOf chunk.F.qos) chunk.properties]
    else []
  | _ => []

/-- A chunk behind those of the messages is restored without an error. -/
def Restorable (load : Heap UInt64 MsgStore) : Chunk → Prop
  | .sub chunk => ∃ id sub topics, chunk.loaded.clientId = some id ∧ chunk.loaded.topic = some sub ∧
      sub.length ≤ 65535 ∧ subTopicTokenise sub = .ok (topics, none)
  | .retain chunk => ∀ store, load.get chunk.storeId = some store →
      ∃ r, subTopicTokenise store.topic = .ok r
  | .cfg _ => False
  | .msgStore _ => False
  | _ => True

/-- What a chunk did to the broker. -/
structure Restored (chunk : Chunk) (r r' : Restoring) : Prop where
  tidy : Tidy r'.world.broker
  load : r'.load = r.load
  contents : ∀ id, (contents r'.world.broker id).Perm
    (contents r.world.broker id ++ added r.load id chunk)

section Step

variable {listeners : Listeners} {r : Restoring}

/-- A chunk that adds nothing. -/
theorem restored_of_same {chunk : Chunk} {w : World} (htidy : Tidy w.broker)
    (hadd : ∀ id, added r.load id chunk = [])
    (hsame : ∀ id, contents w.broker id = contents r.world.broker id) :
    Restored chunk r { r with world := w } := by
  refine ⟨htidy, rfl, fun id => ?_⟩
  rw [hadd, List.append_nil]
  exact List.Perm.of_eq (hsame id)

theorem placeRestored_perm (cmsg : ClientMsg) (md : MsgData) :
    ((placeRestored cmsg md).inflight ++ (placeRestored cmsg md).queued ++
      (placeRestored cmsg md).storage).Perm (md.inflight ++ md.queued ++ md.storage ++ [cmsg]) := by
  have hcount : ∀ md : MsgData, (md.count cmsg cmsg.qos).inflight = md.inflight ∧
      (md.count cmsg cmsg.qos).queued = md.queued ∧
      (md.count cmsg cmsg.qos).storage = md.storage := by
    intro md
    unfold MsgData.count
    simp only
    split <;> exact ⟨rfl, rfl, rfl⟩
  unfold placeRestored
  simp only [hcount]
  split
  · simp only [List.append_assoc]
    exact ((List.perm_append_comm).append_left _).append_left _
  · have hlast : (md.inflight ++ [cmsg] ++ md.queued ++ md.storage).Perm
        (md.inflight ++ md.queued ++ md.storage ++ [cmsg]) := by
      simp only [List.append_assoc]
      refine List.Perm.append_left _ ?_
      rw [← List.append_assoc md.queued]
      exact List.perm_append_comm
    split
    · exact hlast
    · exact hlast

/-- A message is put into the lists of a context. -/
theorem Tidy.place {b : State} {id : Bytes} {c : CtxId} (hb : Tidy b)
    (hc : b.contextsById.get id = some c) (direction : Direction) (cmsg : ClientMsg) :
    let b' := b.modifyClient c fun ctx =>
      ctx.setMsgs direction (placeRestored cmsg (ctx.msgs direction))
    Tidy b' ∧ ∀ id', (Persist.contents b' id').Perm (Persist.contents b id' ++
      if id' = id ∧ direction = .mdOut then [content cmsg] else []) := by
  obtain ⟨htidy, hsame, hother⟩ := hb.modifyClient hc
    (f := fun ctx => ctx.setMsgs direction (placeRestored cmsg (ctx.msgs direction)))
    (fun ctx => by cases direction <;> rfl) (fun ctx => by cases direction <;> rfl)
  refine ⟨htidy, fun id' => ?_⟩
  unfold Persist.contents
  by_cases he : id' = id
  · subst he
    obtain ⟨ctx, hctx, -⟩ := hb.byId id' c hc
    have hsession : session b id' = some ctx := by
      rw [session, hc]
      exact hctx
    rw [hsame, hsession]
    cases direction with
    | mdIn =>
      rw [if_neg fun h => (nomatch h.2), List.append_nil]
      exact List.Perm.refl _
    | mdOut =>
      rw [if_pos ⟨rfl, rfl⟩]
      show (List.map content _).Perm (List.map content _ ++ _)
      rw [← List.map_singleton, ← List.map_append]
      exact (placeRestored_perm cmsg ctx.msgsOut).map content
  · rw [hother id' he, if_neg fun h => he h.1, List.append_nil]

theorem clientMsg_step (hb : Tidy r.world.broker) (chunk : PClientMsg Memory) :
    Restored (.clientMsg chunk) r (persistClientMsgRestore chunk.loaded r) := by
  have hF : chunk.loaded.F = chunk.F := rfl
  -- nothing is restored without a store or without an id
  have hnone : (∀ id, added r.load id (.clientMsg chunk) = []) → Restored (.clientMsg chunk) r r :=
    fun h => restored_of_same hb h fun _ => rfl
  unfold persistClientMsgRestore
  rw [hF]
  cases hload : r.load.get chunk.F.storeId with
  | none => exact hnone fun id => by simp [added, hload]
  | some store =>
    cases hid : chunk.loaded.clientId with
    | none => exact hnone fun id => by simp [added, hid]
    | some id =>
      have hf := persistFindOrAddContext_found hb id 0
      simp only
      generalize persistFindOrAddContext id 0 r.world.broker = p at hf ⊢
      obtain ⟨c, b⟩ := p
      have hdb : SameClients b { b with db := { b.db.msgStoreRefInc store.addr with
        nextMsg := b.db.nextMsg + 1 } } := ⟨rfl, rfl, rfl, rfl⟩
      obtain ⟨htidy, hplace⟩ := (hdb.tidy hf.tidy).place hf.get _ _
      refine ⟨htidy, rfl, fun id' => (hplace id').trans ?_⟩
      rw [hdb.contents id', ← hf.contents id']
      refine List.Perm.append_left _ (List.Perm.of_eq ?_)
      rw [added, hid, hload]
      by_cases he : id' = id
      · subst he
        by_cases hd : chunk.F.direction = 1
        · simp [hd, content]
          rfl
        · simp [hd]
      · have he' : id ≠ id' := fun h => he h.symm
        simp [he, he']

theorem client_step (hb : Tidy r.world.broker) (chunk : PClient Memory) :
    Restored (.client chunk) r (restoreClient listeners chunk.loaded r) := by
  unfold restoreClient
  cases chunk.loaded.clientId with
  | none => exact restored_of_same hb (fun _ => rfl) fun _ => rfl
  | some id =>
    have hf := persistFindOrAddContext_found hb id chunk.loaded.F.lastMid
    simp only
    generalize persistFindOrAddContext id chunk.loaded.F.lastMid r.world.broker = p at hf ⊢
    obtain ⟨c, b⟩ := p
    obtain ⟨htidy, hsame⟩ := hf.tidy.modifyClient_contents hf.get (f := fun ctx => { ctx with
      sessionExpiryTime := chunk.loaded.F.sessionExpiryTime.toInt
      sessionExpiryInterval := chunk.loaded.F.sessionExpiryInterval.toNat })
      (fun _ => rfl) (fun _ => rfl) (fun _ => rfl)
    exact restored_of_same htidy (fun _ => rfl) fun id' => (hsame id').trans (hf.contents id')

theorem retainStore_sameClients (stored : MsgStore) (topics : List Bytes) (b : State) :
    SameClients b (retainStore stored topics b) := by
  unfold retainStore setRetained
  simp only
  split
  · exact ⟨rfl, rfl, rfl, rfl⟩
  · exact ⟨rfl, rfl, rfl, rfl⟩

theorem retain_step (hb : Tidy r.world.broker) {chunk : PfRetain}
    (htok : ∀ store, r.load.get chunk.storeId = some store →
      ∃ t, subTopicTokenise store.topic = .ok t) :
    ∃ r', restoreRetain chunk r = .ok r' ∧ Restored (.retain chunk) r r' := by
  unfold restoreRetain
  cases hload : r.load.get chunk.storeId with
  | none => exact ⟨r, rfl, restored_of_same hb (fun _ => rfl) fun _ => rfl⟩
  | some store =>
    obtain ⟨⟨topics, share⟩, ht⟩ := htok store hload
    have hsame := retainStore_sameClients store topics r.world.broker
    refine ⟨{ r with world := { r.world with broker := retainStore store topics r.world.broker } },
      ?_, restored_of_same (hsame.tidy hb) (fun _ => rfl) hsame.contents⟩
    simp only [ht]

theorem subAdd_success {ids : CtxId → Option Bytes} {c : CtxId} {sub : Bytes} {topics : List Bytes}
    (qos : Qos) (identifier : Nat) (options : UInt8) {st : SubSt}
    (hok : st.tree.Ok) (htok : subTopicTokenise sub = .ok (topics, none))
    (hlen : ∀ l ∈ topics, l.length ≤ 65535) :
    (subAdd ids c .invalid sub qos identifier options st).1 = Rc.success := by
  have hroot : ¬ (topics.headD []).length > 65535 := by
    cases topics with
    | nil => simp
    | cons a topics => exact Nat.not_lt.mpr (hlen a List.mem_cons_self)
  obtain ⟨hok₁, hhas₁, -⟩ := @SubTree.addHierEntry_spec st.tree [topics.headD []] hok (by simp)
    (by simp)
  obtain ⟨hbranch, -⟩ := addBranches_spec hok₁ ((hhas₁ _).mpr (.inl rfl)) hlen
  unfold subAdd
  rw [htok]
  simp only [if_neg hroot]
  unfold subAddContext
  generalize addBranches topics [topics.headD []] (st.tree.addHierEntry [topics.headD []]) = p at *
  obtain ⟨tree, e⟩ := p
  simp only at hbranch
  subst hbranch
  simp only
  split
  · rfl
  · unfold subAddNormal
    split
    · rfl
    · simp only
      split
      · rfl
      · rfl

theorem sub_step (hb : Tidy r.world.broker) {chunk : PSub Memory} {id sub : Bytes}
    {topics : List Bytes} (hid : chunk.loaded.clientId = some id)
    (hsub : chunk.loaded.topic = some sub) (hlen : sub.length ≤ 65535)
    (htok : subTopicTokenise sub = .ok (topics, none)) :
    ∃ r', persistRestoreSub chunk.loaded r = .ok r' ∧ Restored (.sub chunk) r r' := by
  have hlevels : ∀ l ∈ topics, l.length ≤ 65535 := fun l hl =>
    (length_le_of_mem_topics htok hl).trans hlen
  have hf := persistFindOrAddContext_found hb id 0
  unfold persistRestoreSub
  rw [hid, hsub]
  simp only
  generalize persistFindOrAddContext id 0 r.world.broker = p at hf ⊢
  obtain ⟨c, b⟩ := p
  obtain ⟨ctx, hctx, -⟩ := hf.tidy.byId id c hf.get
  have hproto : ((b.contexts.get c).map (·.protocol)).getD .invalid = .invalid := by
    show ((b.contexts.get c).map _).getD _ = _
    rw [hctx]
    exact hf.tidy.protocol c ctx hctx
  have hrc := @subAdd_success b.ids c sub topics (qosOf chunk.loaded.F.qos)
    chunk.loaded.F.identifier.toNat chunk.loaded.F.options ⟨b.subs.tree, b.subs.subs c⟩
    hf.tidy.tree htok hlevels
  obtain ⟨hok, -, hleaves, -⟩ := subAdd_spec b.ids c .invalid (qosOf chunk.loaded.F.qos)
    chunk.loaded.F.identifier.toNat chunk.loaded.F.options ⟨b.subs.tree, b.subs.subs c⟩
    hf.tidy.tree htok hlevels
  simp only [hproto]
  rw [hrc, if_neg (by decide)]
  refine ⟨_, rfl, restored_of_same ⟨hf.tidy.byId, hf.tidy.allocated, hf.tidy.protocol, hok,
    fun p name => ?_⟩ (fun _ => rfl) hf.contents⟩
  show SubTree.leaves _ p (some name) = []
  rw [hleaves, if_neg fun h => by cases h.2]
  exact hf.tidy.unshared p name

/-- **One chunk.** -/
theorem restoreChunk_step (hb : Tidy r.world.broker) {chunk : Chunk}
    (hc : Restorable r.load chunk) :
    ∃ r', restoreChunk listeners chunk r = .ok r' ∧ Restored chunk r r' := by
  cases chunk with
  | cfg chunk => exact hc.elim
  | msgStore chunk => exact hc.elim
  | client chunk => exact ⟨_, rfl, client_step hb chunk⟩
  | clientMsg chunk => exact ⟨_, rfl, clientMsg_step hb chunk⟩
  | sub chunk =>
    obtain ⟨id, sub, topics, hid, hsub, hlen, htok⟩ := hc
    exact sub_step hb hid hsub hlen htok
  | retain chunk => exact retain_step hb hc

/-- **A run of chunks** behind those of the messages. -/
theorem restore_chunks (chunks : List Chunk) : ∀ {r : Restoring}, Tidy r.world.broker →
    (∀ chunk ∈ chunks, Restorable r.load chunk) →
    ∃ r', chunks.foldlM (fun r chunk => restoreChunk listeners chunk r) r = .ok r' ∧
      Tidy r'.world.broker ∧ ∀ id, (contents r'.world.broker id).Perm
        (contents r.world.broker id ++ chunks.flatMap (added r.load id)) := by
  induction chunks with
  | nil =>
    intro r hb _
    exact ⟨r, rfl, hb, fun id => by rw [List.flatMap_nil, List.append_nil]⟩
  | cons chunk chunks ih =>
    intro r hb hc
    obtain ⟨hchunk, hchunks⟩ := List.forall_mem_cons.mp hc
    obtain ⟨r₁, hr₁, hstep⟩ := @restoreChunk_step listeners r hb chunk hchunk
    obtain ⟨r', hr', htidy, hcontents⟩ := ih hstep.tidy (by rwa [hstep.load])
    refine ⟨r', ?_, htidy, fun id => (hcontents id).trans ?_⟩
    · rw [List.foldlM_cons, hr₁]
      exact hr'
    · rw [hstep.load, List.flatMap_cons, ← List.append_assoc]
      exact (hstep.contents id).append_right _

end Step

/-! ## The messages of the file -/

theorem copy_cstr (text : Bytes) : copy (cstr text) 0 text.length = text := by
  apply List.ext_getElem
  · rw [length_copy]
  · intro i h _
    rw [length_copy] at h
    simp [copy, cstr, h]

theorem loaded_cstr_of_ne {text : Bytes} (h : text ≠ []) :
    loaded (cstr text) text.length = some text := by
  have hlen : text.length ≠ 0 := fun h' => h (List.length_eq_zero_iff.mp h')
  rw [loaded, if_pos hlen, copy_cstr]

theorem loaded_cstr (text : Bytes) : (loaded (cstr text) text.length).getD [] = text := by
  by_cases h : text = []
  · subst h
    rfl
  · rw [loaded_cstr_of_ne h]
    rfl

theorem toNat_ofNat16 {n : Nat} (h : n ≤ 65535) : (UInt16.ofNat n).toNat = n := by
  rw [UInt16.toNat_ofNat']
  omega

theorem qosOf_qosByte (qos : Qos) : qosOf (qosByte qos) = qos := by
  cases qos <;> rfl

/-- A store that comes through the file while it is restored with this clock. -/
structure Keepable (clock : Nat → Reading) (s : MsgStore) : Prop where
  addr_pos : 0 < s.addr
  addr_lt : s.addr < 2 ^ 64
  topic : s.topic.length ≤ 65535
  sourceId : s.sourceId.length ≤ 65535
  payload : s.payload.length ≤ 268435455
  properties : PublishProperties s.properties
  expiry_range : -2 ^ 63 ≤ s.messageExpiryTime ∧ s.messageExpiryTime < 2 ^ 63
  unexpired : 0 < s.messageExpiryTime → ∀ n, (clock n).wall ≤ s.messageExpiryTime ∧
    s.messageExpiryTime ≤ (clock n).wall + 4294967295

/-- What clients get of a store. -/
def SameContent (s s' : MsgStore) : Prop :=
  s.topic = s'.topic ∧ s.payload = s'.payload ∧ s.properties = s'.properties

section Stores

variable {listeners : Listeners} {clock : Nat → Reading} {r : Restoring} {s : MsgStore}

theorem msgStoreChunk_readable (hs : Keepable clock s) (origin : Login) :
    (Chunk.msgStore (msgStoreChunk origin s)).Readable := by
  refine ⟨hs.properties, ?_⟩
  apply UInt32.le_iff_toNat_le.mpr
  have hpay := hs.payload
  show (UInt32.ofNat s.payload.length).toNat ≤ 268435455
  rw [UInt32.toNat_ofNat']
  omega

theorem expiryInterval_some {db : MosquittoDb} (hs : Keepable clock s) (hclock : db.clock = clock) :
    ∃ interval db', expiryInterval (Int64.ofInt s.messageExpiryTime) db = (some interval, db') ∧
      db'.clock = clock := by
  have htime := Int64.toInt_ofInt_of_le hs.expiry_range.1 hs.expiry_range.2
  unfold expiryInterval
  split
  · rename_i hpos
    have hpos' : 0 < s.messageExpiryTime := by
      have := Int64.lt_iff_toInt_lt.mp hpos
      rwa [htime] at this
    obtain ⟨hle, hmax⟩ := hs.unexpired hpos' db.tick
    have hleft : ¬ (s.messageExpiryTime - db.read.1.wall < 0 ∨
        s.messageExpiryTime - db.read.1.wall > 4294967295) := by
      have hwall : db.read.1.wall = (clock db.tick).wall := by rw [← hclock]; rfl
      rw [hwall]
      omega
    simp only [htime, if_neg hleft]
    exact ⟨_, _, rfl, hclock⟩
  · exact ⟨0, db, rfl, hclock⟩

theorem msgStore_step (hs : Keepable clock s) (hclock : r.world.broker.db.clock = clock)
    (origin : Login) :
    let r' := restoreMsgStore listeners (msgStoreChunk origin s).loaded r
    SameClients r.world.broker r'.world.broker ∧ r'.world.broker.db.clock = clock ∧
      ∃ s', r'.load = r.load.set (UInt64.ofNat s.addr) s' ∧ SameContent s' s := by
  obtain ⟨interval, db, hexp, hdb⟩ := expiryInterval_some hs hclock
  have haddr : (UInt64.ofNat s.addr).toNat = s.addr := by
    rw [UInt64.toNat_ofNat']
    exact Nat.mod_eq_of_lt hs.addr_lt
  have hne : s.addr ≠ 0 := Nat.pos_iff_ne_zero.mp hs.addr_pos
  have hpay : (UInt32.ofNat s.payload.length).toNat = s.payload.length := by
    have := hs.payload
    rw [UInt32.toNat_ofNat']
    omega
  have htopic : (msgStoreChunk origin s).loaded.topic.getD [] = s.topic := by
    show (loaded (cstr s.topic) (UInt16.ofNat s.topic.length).toNat).getD [] = s.topic
    rw [toNat_ofNat16 hs.topic, loaded_cstr]
  have hpayload : (msgStoreChunk origin s).loaded.payload.getD [] = s.payload := by
    show (loaded (cstr s.payload) (UInt32.ofNat s.payload.length).toNat).getD [] = s.payload
    rw [hpay, loaded_cstr]
  intro r'
  have hr' : r' = restoreMsgStore listeners (msgStoreChunk origin s).loaded r := rfl
  unfold restoreMsgStore at hr'
  have hF : (msgStoreChunk origin s).loaded.F.expiryTime = Int64.ofInt s.messageExpiryTime := rfl
  have hid : (msgStoreChunk origin s).loaded.F.storeId = UInt64.ofNat s.addr := rfl
  simp only [hF, hexp, messageStoreAs, hid, haddr, if_neg hne, htopic, hpayload] at hr'
  rw [hr']
  exact ⟨⟨rfl, rfl, rfl, rfl⟩, hdb, _, rfl, rfl, rfl, rfl⟩

theorem addr_inj {s s' : MsgStore} (hs : Keepable clock s) (hs' : Keepable clock s')
    (h : UInt64.ofNat s.addr = UInt64.ofNat s'.addr) : s.addr = s'.addr := by
  have h' := congrArg UInt64.toNat h
  rwa [UInt64.toNat_ofNat', UInt64.toNat_ofNat', Nat.mod_eq_of_lt hs.addr_lt,
    Nat.mod_eq_of_lt hs'.addr_lt] at h'

/-- **The stores of the file** are found by their ids. -/
theorem restore_stores (origins : StoreId → Login) (stores : List MsgStore) :
    ∀ {r : Restoring}, r.world.broker.db.clock = clock → (∀ s ∈ stores, Keepable clock s) →
    (stores.map (·.addr)).Nodup →
    ∃ r', (stores.map fun s => Chunk.msgStore (msgStoreChunk (origins s.addr) s)).foldlM
        (fun r chunk => restoreChunk listeners chunk r) r = .ok r' ∧
      SameClients r.world.broker r'.world.broker ∧
      (∀ s ∈ stores, ∃ s', r'.load.get (UInt64.ofNat s.addr) = some s' ∧ SameContent s' s) ∧
      ∀ k, (∀ s ∈ stores, UInt64.ofNat s.addr ≠ k) → r'.load.get k = r.load.get k := by
  induction stores with
  | nil =>
    intro r _ _ _
    exact ⟨r, rfl, ⟨rfl, rfl, rfl, rfl⟩, fun s h => (nomatch h), fun k _ => rfl⟩
  | cons s stores ih =>
    intro r hclock hs hnd
    obtain ⟨hfirst, hrest⟩ := List.forall_mem_cons.mp hs
    rw [List.map_cons, List.nodup_cons] at hnd
    obtain ⟨hsame, hclock', s', hload, hcontent⟩ :=
      @msgStore_step listeners clock r s hfirst hclock (origins s.addr)
    obtain ⟨r', hr', hsame', hfound, hother⟩ := ih hclock' hrest hnd.2
    refine ⟨r', hr', hsame.trans hsame', ?_, fun k hk => ?_⟩
    · refine List.forall_mem_cons.mpr ⟨⟨s', ?_, hcontent⟩, hfound⟩
      -- no later store has the same id
      rw [hother, hload, Heap.get_set_self]
      intro t ht he
      exact hnd.1 (addr_inj (hrest t ht) hfirst he ▸ List.mem_map_of_mem ht)
    · obtain ⟨hk, hks⟩ := List.forall_mem_cons.mp hk
      rw [hother k hks, hload, Heap.get_set_ne _ _ hk.symm]

end Stores

end AdaptiveMqtt.Persist
