import AdaptiveMqtt.Broker.Steps
import AdaptiveMqtt.Db.Rest

/-!
# The registry of sessions

What the life of a session depends on: the fields of the clients that have nothing to do
with messages, who has which id, the lists of sessions that expire, of wills that are delayed
and of clients to be freed. Passing messages on does not touch the registry, whatever the
network and the access control do.
-/

namespace AdaptiveMqtt.Broker

open Lib AdaptiveMqtt.Sub Db

/-- A client without its messages. -/
structure Party where
  id : Option Bytes
  sock : Option Nat
  state : ClientState
  protocol : Protocol
  bridged : Bool
  cleanStart : Bool
  sessionExpiryInterval : Nat
  sessionExpiryTime : Int
  will : Option Will
  willDelayInterval : Nat
  willDelayTime : Int
  removedFromById : Bool

def party (ctx : Context) : Party :=
  { id := ctx.id, sock := ctx.sock, state := ctx.state, protocol := ctx.protocol
    bridged := ctx.bridge.isSome, cleanStart := ctx.cleanStart
    sessionExpiryInterval := ctx.sessionExpiryInterval, sessionExpiryTime := ctx.sessionExpiryTime
    will := ctx.will, willDelayInterval := ctx.willDelayInterval, willDelayTime := ctx.willDelayTime
    removedFromById := ctx.removedFromById }

/-- The registry. `limit` is `persistent_client_expiration`. -/
structure Registry where
  parties : CtxId → Option Party
  nextContext : CtxId
  contextsById : Bytes → Option CtxId
  expiryList : List CtxId
  lastExpiryCheck : Int
  delayList : List CtxId
  lastDelayCheck : Int
  llForFree : List CtxId
  limit : Nat
  now : Int

def State.registry (b : State) : Registry :=
  { parties := fun c => (b.contexts.get c).map party, nextContext := b.nextContext
    contextsById := b.contextsById.get, expiryList := b.expiryList
    lastExpiryCheck := b.lastExpiryCheck, delayList := b.delayList
    lastDelayCheck := b.lastDelayCheck, llForFree := b.llForFree
    limit := b.db.config.persistentClientExpiration, now := b.db.nowRealS }

/-! ## One client -/

/-- Nothing of the client but its messages changes, and the time stands still. -/
structure Quiet (m m' : Machine) : Prop where
  party : party m'.ctx = party m.ctx
  config : m'.db.config = m.db.config
  nowRealS : m'.db.nowRealS = m.db.nowRealS

section Quiet

variable {net : Net} {env : Env} {m m' m'' : Machine}

theorem Quiet.refl (m : Machine) : Quiet m m := ⟨rfl, rfl, rfl⟩

theorem Quiet.trans (h : Quiet m m') (h' : Quiet m' m'') : Quiet m m'' :=
  ⟨h'.party.trans h.party, h'.config.trans h.config, h'.nowRealS.trans h.nowRealS⟩

theorem party_rest (ctx : Context) : party ctx.rest = party ctx := by
  unfold party Context.rest
  simp only [Option.isSome_map]

theorem quiet_of_rests (h : Rests m m') : Quiet m m' :=
  ⟨Context.of_rest party party_rest h.rest, h.config, h.nowRealS⟩

theorem party_setMode (ctx : Context) (mode : TransferMode) :
    party (ctx.setMode mode) = party ctx := by
  unfold Context.setMode
  split <;> rfl

theorem quiet_beforeInsert (m : Machine) : Quiet m (beforeInsert m) := by
  unfold beforeInsert leaveSlowMode
  split
  · simp only
    split
    · exact ⟨party_setMode _ _, rfl, rfl⟩
    · exact ⟨rfl, rfl, rfl⟩
  · exact .refl m

theorem quiet_messageInsert (mid : UInt16) (dir : Direction) (qos : Qos) (retain : Bool)
    (stored : MsgStore) (properties : List Property) (update : Bool) (m : Machine) :
    Quiet m (messageInsert net mid dir qos retain stored properties update m).2 := by
  rcases @rests_messageInsert net mid dir qos retain stored properties update m with h | h
  · exact quiet_of_rests h
  · exact (quiet_beforeInsert m).trans (quiet_of_rests h)

theorem quiet_midFor (qos : Qos) (m : Machine) : Quiet m (midFor qos m).2 := by
  obtain ⟨lastMid, h⟩ := midFor_eq qos m
  rw [h]
  exact ⟨rfl, rfl, rfl⟩

theorem quiet_handlePubackcomp (type : AckType) (p : AckPacket) (m : Machine) :
    Quiet m (handlePubackcomp net type p m).2 := by
  rcases @rests_handlePubackcomp net type p m with ⟨-, h⟩ | ⟨-, h⟩
  · refine Quiet.trans ?_ (quiet_of_rests h)
    rw [recordLatency_eq]
    exact ⟨rfl, rfl, rfl⟩
  · exact quiet_of_rests h

theorem quiet_sendCommand (c : Command) (m : Machine) : Quiet m (sendCommand net c m).2 :=
  quiet_of_rests (rests_sendCommand c m)

theorem quiet_onMsgs (dir : Direction) (f : MsgData → MsgData) (m : Machine) :
    Quiet m (m.onMsgs dir f) :=
  quiet_of_rests (rests_onMsgs dir f m)

theorem quiet_sendPubrec (mid : UInt16) (reasonCode : UInt8) (m : Machine) :
    Quiet m (sendPubrec net mid reasonCode m).2 := by
  unfold sendPubrec
  simp only
  split
  · exact (quiet_onMsgs .mdIn _ m).trans (quiet_sendCommand _ _)
  · exact quiet_sendCommand _ m

theorem quiet_sendPuback (mid : UInt16) (reasonCode : UInt8) (m : Machine) :
    Quiet m (sendPuback net mid reasonCode m).2 :=
  (quiet_onMsgs .mdIn _ m).trans (quiet_sendCommand _ _)

theorem quiet_sendPubcomp (mid : UInt16) (m : Machine) : Quiet m (sendPubcomp net mid m).2 :=
  (quiet_onMsgs .mdIn _ m).trans (quiet_sendCommand _ _)

theorem quiet_messageRemoveIncoming (mid : UInt16) (m : Machine) :
    Quiet m (messageRemoveIncoming mid m).2 := by
  unfold messageRemoveIncoming
  split
  · exact .refl m
  · split
    · exact .refl m
    · exact quiet_of_rests (rests_messageRemove .mdIn _ m)

theorem quiet_writeQueuedInLoop (l : List ClientMsg) (m : Machine) :
    Quiet m (writeQueuedInLoop net l m).2 := by
  induction l generalizing m with
  | nil => exact .refl m
  | cons tail rest ih =>
    have hsend : ∀ m : Machine, Quiet m (sendPubrec net tail.mid 0
        ((updateIncoming tail.addr (fun msg => { msg with state := .sendPubrec }) m).onMsgs .mdIn
          (·.dequeueFirst))).2 := fun m =>
      ((quiet_onMsgs .mdIn _ m).trans (quiet_onMsgs .mdIn _ _)).trans (quiet_sendPubrec _ _ _)
    unfold writeQueuedInLoop
    split
    · exact .refl m
    · split
      · simp only
        split
        · exact ((hsend m).trans (quiet_onMsgs .mdIn _ _)).trans (ih _)
        · exact hsend m
      · exact ih m

theorem quiet_messageWriteQueuedIn (m : Machine) : Quiet m (messageWriteQueuedIn net m).2 := by
  unfold messageWriteQueuedIn
  split
  · exact .refl m
  · exact quiet_writeQueuedInLoop _ m

theorem quiet_releaseQueuedLoop (l : List ClientMsg) (i : Nat) (m : Machine) :
    Quiet m (releaseQueuedLoop net l i m) := by
  induction l generalizing i m with
  | nil => exact .refl m
  | cons tail rest ih =>
    unfold releaseQueuedLoop
    split
    · exact .refl m
    · simp only
      have hstamp := quiet_onMsgs .mdIn (fun md =>
        { md with
          inflight := updateAt tail.addr (fun msg => { msg with timestamp := m.db.nowS }) md.inflight
          queued := updateAt tail.addr (fun msg => { msg with timestamp := m.db.nowS }) md.queued }) m
      split
      · exact (((hstamp.trans (quiet_sendPubrec _ _ _)).trans (quiet_onMsgs .mdIn _ _)).trans
          (quiet_onMsgs .mdIn _ _)).trans (ih _ _)
      · exact hstamp.trans (ih _ _)

theorem quiet_dropRef (dir : Direction) (msg : ClientMsg) (m : Machine) :
    Quiet m (dropRef dir msg m) := by
  have hdec := quiet_of_rests (rests_refDec msg.store.addr m)
  unfold dropRef
  split
  · exact ⟨rfl, hdec.config, hdec.nowRealS⟩
  · exact hdec

theorem quiet_messagesDelete (forceFree : Bool) (m : Machine) :
    Quiet m (messagesDelete forceFree m) := by
  have hlist : ∀ (dir : Direction) (l : List ClientMsg) (m : Machine),
      Quiet m (messagesDeleteList dir l m) := by
    intro dir l
    induction l with
    | nil => exact Quiet.refl
    | cons msg l ih => exact fun m => (quiet_dropRef dir msg m).trans (ih _)
  have hdelete : ∀ (dir : Direction) (m : Machine), Quiet m ((messagesDeleteList dir
      (m.ctx.msgs dir).queued (messagesDeleteList dir (m.ctx.msgs dir).inflight m)).onMsgs dir
        (·.deleted)) := fun dir m =>
    ((hlist dir _ m).trans (hlist dir _ _)).trans (quiet_onMsgs dir _ _)
  unfold messagesDelete
  simp only
  split
  · split
    · exact (hdelete .mdIn m).trans (hdelete .mdOut _)
    · exact hdelete .mdOut m
  · split
    · exact hdelete .mdIn m
    · exact .refl m

theorem quiet_checkAclLoop (dir : Direction) (ctx : Context) (l : List ClientMsg) (m : Machine) :
    Quiet m (checkAclLoop env dir ctx l m).2 := by
  induction l generalizing m with
  | nil => exact .refl m
  | cons msg rest ih =>
    unfold checkAclLoop
    simp only
    generalize (if msg.direction = .mdOut then Access.read else .write) = access
    split
    · exact (quiet_dropRef dir msg m).trans (ih _)
    · exact ih m

theorem quiet_connectionCheckAcl (m : Machine) : Quiet m (connectionCheckAcl env m) := by
  have hcheck : ∀ (dir : Direction) (m : Machine), Quiet m
      (let r := checkAclLoop env dir m.ctx (m.ctx.msgs dir).inflight m
       let m := r.2.onMsgs dir fun md => { md with inflight := r.1 }
       let r := checkAclLoop env dir m.ctx (m.ctx.msgs dir).queued m
       r.2.onMsgs dir fun md => { md with queued := r.1 }) := fun dir m =>
    (((quiet_checkAclLoop dir _ _ m).trans (quiet_onMsgs dir _ _)).trans
      (quiet_checkAclLoop dir _ _ _)).trans (quiet_onMsgs dir _ _)
  exact (hcheck .mdIn m).trans (hcheck .mdOut _)

end Quiet

/-! ## Messages -/

section Messages

variable {env : Env} {c : CtxId} {b b' : State}

/-- A change of the database and of the clients that the registry does not see. -/
theorem registry_eq {db : MosquittoDb} {contexts : Heap CtxId Context}
    (hparties : ∀ d, (contexts.get d).map party = (b.contexts.get d).map party)
    (hconfig : db.config = b.db.config) (hnow : db.nowRealS = b.db.nowRealS) :
    { b with db, contexts }.registry = b.registry := by
  have hp : (fun d => (contexts.get d).map party) = fun d => (b.contexts.get d).map party :=
    funext hparties
  unfold State.registry
  simp only [hp, hconfig, hnow]

theorem registry_onClient {f : Machine → Rc × Machine} (hf : ∀ m, Quiet m (f m).2) (c : CtxId)
    (b : State) : (b.onClient c f).2.registry = b.registry := by
  unfold State.onClient
  split
  · rfl
  · rename_i ctx hget
    have hq := hf ⟨b.db, ctx⟩
    refine registry_eq (fun d => ?_) hq.config hq.nowRealS
    by_cases hd : d = c
    · subst hd
      rw [Heap.get_set_self, hget]
      exact congrArg some hq.party
    · rw [Heap.get_set_ne _ _ hd]

theorem registry_modifyClient {f : Context → Context} (hf : ∀ ctx, party (f ctx) = party ctx)
    (c : CtxId) (b : State) : (b.modifyClient c f).registry = b.registry := by
  refine registry_eq (fun d => ?_) rfl rfl
  rw [Heap.get_modify]
  split
  · rename_i hd
    subst hd
    rw [Option.map_map]
    exact congrArg (fun g => (b.contexts.get d).map g) (funext hf)
  · rfl

theorem registry_refDec (s : StoreId) (b : State) :
    { b with db := b.db.msgStoreRefDec s }.registry = b.registry := by
  have h := fun ctx => rests_refDec s ⟨b.db, ctx⟩
  exact registry_eq (b := b) (fun _ => rfl) (h (Context.init b.db.config none)).config
    (h (Context.init b.db.config none)).nowRealS

theorem registry_insert (qos : Qos) (retain : Bool) (stored : MsgStore) (properties : List Property)
    (update : Bool) (c : CtxId) (b : State) : (b.onClient c fun m =>
      messageInsert env.net (midFor qos m).1 .mdOut qos retain stored properties update
        (midFor qos m).2).2.registry = b.registry :=
  registry_onClient (fun m => (quiet_midFor qos m).trans (quiet_messageInsert _ _ _ _ _ _ _ _)) c b

theorem registry_subsSend (topic : Bytes) (qos : Qos) (retain : Bool) (stored : MsgStore)
    (leaf : SubLeaf) (b : State) :
    (subsSend env topic qos retain stored leaf b).2.registry = b.registry := by
  unfold subsSend
  split
  · rfl
  · simp only
    split
    · rfl
    · split
      · exact registry_insert _ _ _ _ _ _ b
      · rfl

theorem registry_subSend (sourceId topic : Bytes) (qos : Qos) (retain : Bool) (stored : MsgStore)
    (splitTopics : List Bytes) (b : State) :
    (subSend env sourceId topic qos retain stored splitTopics b).2.registry = b.registry := by
  have hsearch : (searchRoot (fun _ _ leaf b => subsSend env topic qos retain stored leaf b) b.ids
      sourceId splitTopics b.subs.tree b).2.2.registry = b.registry := by
    refine keeps_searchRoot (P := fun b' : State => b'.registry = b.registry) ?_ _ _ rfl
    exact fun _ _ leaf b' h => (registry_subsSend topic qos retain stored leaf b').trans h
  exact hsearch

theorem registry_setRetained (node : Path) (stored : Option MsgStore) (b : State) :
    (setRetained node stored b).registry = b.registry := by
  unfold setRetained
  split
  · rfl
  · rename_i h hget
    have hdec : { b with db := h.retained.elim b.db fun old => b.db.msgStoreRefDec old.addr }.registry =
        b.registry := by
      cases h.retained with
      | none => rfl
      | some old => exact registry_refDec old.addr b
    cases stored with
    | none => exact hdec
    | some s => exact hdec

theorem registry_retainStore (stored : MsgStore) (splitTopics : List Bytes) (b : State) :
    (retainStore stored splitTopics b).registry = b.registry :=
  registry_setRetained _ _ _

theorem registry_subMessagesQueue (sourceId topic : Bytes) (qos : Qos) (retain : Bool)
    (stored : MsgStore) (b : State) :
    (subMessagesQueue env sourceId topic qos retain stored b).2.registry = b.registry := by
  unfold subMessagesQueue
  simp only
  split
  · rfl
  · rename_i splitTopics _ _
    have hsend := @registry_subSend env sourceId topic qos retain stored splitTopics
      { b with passed := b.passed ++ [stored], db := b.db.msgStoreRefInc stored.addr }
    refine (registry_refDec _ _).trans ?_
    split
    · exact (registry_retainStore _ _ _).trans hsend
    · exact hsend

theorem registry_messagesEasyQueue (source : Option Context) (msg : NewMsg) (expiry : Nat)
    (b : State) : (messagesEasyQueue env source msg expiry b).2.registry = b.registry :=
  registry_subMessagesQueue _ _ _ _ _ _

theorem registry_retainQueue (c : CtxId) (sub : Bytes) (subQos : Qos) (identifier : Nat)
    (b : State) : (retainQueue env c sub subQos identifier b).2.registry = b.registry :=
  keeps_retainQueue (P := fun b' => b'.registry = b.registry)
    (fun _ _ h => (registry_setRetained _ _ _).trans h)
    (fun _ _ b' h => (registry_insert _ _ _ _ _ _ b').trans h) sub subQos rfl

/-! ### Packets -/

theorem registry_releaseLoop (c : CtxId) (mid : UInt16) (l : List ClientMsg) (deleted : Bool)
    (b : State) : (releaseLoop env c mid l deleted b).2.registry = b.registry := by
  induction l generalizing deleted b with
  | nil => rfl
  | cons tail rest ih =>
    have hqueue := @registry_subMessagesQueue env tail.store.sourceId tail.store.topic .q2 tail.retain
      tail.store b
    unfold releaseLoop
    split
    · exact ih deleted b
    · split
      · rfl
      · simp only
        split
        · refine (ih true _).trans ((registry_onClient (fun m => ?_) c _).trans hqueue)
          exact quiet_of_rests (rests_messageRemove .mdIn tail m)
        · exact hqueue

theorem registry_messageReleaseIncoming (c : CtxId) (mid : UInt16) (b : State) :
    (messageReleaseIncoming env c mid b).2.registry = b.registry := by
  unfold messageReleaseIncoming
  split
  · rfl
  · rename_i ctx hget
    have hloop := @registry_releaseLoop env c mid ctx.msgsIn.inflight false b
    split
    · rename_i rc b₁ heq
      rw [heq] at hloop
      exact hloop
    · rename_i deleted b₁ heq
      rw [heq] at hloop
      exact (registry_onClient (fun m => quiet_releaseQueuedLoop _ _ m) c b₁).trans hloop

theorem registry_handlePubrel (c : CtxId) (p : AckPacket) (b : State) :
    (handlePubrel env c p b).2.registry = b.registry := by
  unfold handlePubrel
  split
  · rfl
  · split
    · rfl
    · split
      · rfl
      · rename_i mid _
        have hrelease := @registry_messageReleaseIncoming env c mid b
        simp only
        split
        · exact hrelease
        · exact (registry_onClient (fun m => quiet_sendPubcomp _ m) c _).trans hrelease

theorem registry_processBadMessage (c : CtxId) (msg : NewMsg) (reasonCode : UInt8) (b : State) :
    (processBadMessage env c msg reasonCode b).2.registry = b.registry := by
  unfold processBadMessage
  split
  · rfl
  · exact registry_onClient (fun m => quiet_sendPuback _ _ m) c b
  · exact registry_onClient (fun m => quiet_sendPubrec _ _ m) c b

theorem registry_controlProcess (c : CtxId) (msg : NewMsg) (b : State) :
    (controlProcess env c msg b).2.registry = b.registry := by
  unfold controlProcess
  split
  · rfl
  · exact registry_onClient (fun m => quiet_sendPuback _ _ m) c b
  · exact registry_onClient (fun m => quiet_sendPubrec _ _ m) c b

theorem registry_publishQos1 (ctx : Context) (stored : MsgStore) (mid : UInt16) (c : CtxId)
    (b : State) : (publishQos1 env c ctx stored mid b).2.registry = b.registry := by
  have hquota : (b.modifyClient c fun ctx =>
      { ctx with msgsIn := ctx.msgsIn.decrementQuota }).registry = b.registry := by
    apply registry_modifyClient
    exact fun _ => rfl
  have hqueue := fun b => @registry_subMessagesQueue env (ctx.id.getD []) stored.topic .q1
    stored.retain stored b
  unfold publishQos1
  simp only
  split
  · exact (registry_onClient (fun m => quiet_sendPuback _ _ m) c _).trans ((hqueue _).trans hquota)
  · split
    · exact (registry_onClient (fun m => quiet_sendPuback _ _ m) c _).trans
        ((hqueue _).trans hquota)
    · exact (hqueue _).trans hquota

theorem registry_publishQos2 (stored : MsgStore) (dup : Bool) (c : CtxId) (b : State) :
    (publishQos2 env c stored dup b).2.registry = b.registry := by
  have hinsert : (if dup = true then (Rc.success, b) else b.onClient c
      (messageInsert env.net stored.sourceMid .mdIn stored.qos stored.retain stored [] false)).2.registry =
      b.registry := by
    split
    · rfl
    · exact registry_onClient (fun m => quiet_messageInsert _ _ _ _ _ _ _ m) c b
  unfold publishQos2
  simp only
  generalize (if dup = true then (Rc.success, b) else b.onClient c
    (messageInsert env.net stored.sourceMid .mdIn stored.qos stored.retain stored [] false)) = r
    at hinsert
  split
  · exact (registry_onClient (fun m => quiet_sendPubrec _ _ m) c _).trans hinsert
  · exact hinsert

theorem registry_publishStored (ctx : Context) (stored : MsgStore) (mid : UInt16) (dup : Bool)
    (c : CtxId) (b : State) : (publishStored env c ctx stored mid dup b).2.registry = b.registry := by
  unfold publishStored
  refine (registry_onClient (fun m => quiet_messageWriteQueuedIn m) c _).trans ?_
  split
  · exact registry_subMessagesQueue _ _ _ _ _ _
  · exact registry_publishQos1 _ _ _ _ _
  · exact registry_publishQos2 _ _ _ _

theorem registry_acceptPublish (c : CtxId) (msg : NewMsg) (expiry : Nat) (b : State) :
    (acceptPublish env c msg expiry b).2.registry = b.registry := by
  have hfind : (findStored c msg b).2.registry = b.registry := by
    unfold findStored
    simp only
    generalize (if msg.qos ≠ .q0 then _ else none) = stored
    split
    · exact registry_onClient (fun m => quiet_messageRemoveIncoming _ m) c b
    · rfl
  unfold acceptPublish
  simp only
  split
  · exact hfind
  · split
    · exact (registry_publishStored _ _ _ _ _ _).trans hfind
    · split
      · exact (registry_publishStored _ _ _ _ _ _).trans hfind
      · exact (registry_processBadMessage _ _ _ _).trans hfind

theorem registry_handlePublish (c : CtxId) (p : PublishPacket) (b : State) :
    (handlePublish env c p b).2.registry = b.registry := by
  unfold handlePublish
  split
  · rfl
  · split
    · rfl
    · split
      · rfl
      · split
        · exact registry_processBadMessage _ _ _ _
        · simp only
          split_ifs
          · exact registry_processBadMessage _ _ _ _
          · rfl
          · exact registry_controlProcess _ _ _
          · exact registry_acceptPublish _ _ _ _

theorem registry_subscribeOne (ctx : Context) (identifier : Nat) (f : SubscribeFilter) (c : CtxId)
    (b : State) : (subscribeOne env c ctx identifier f b).2.registry = b.registry := by
  unfold subscribeOne
  split
  · rfl
  · rfl
  · split
    · rfl
    · split
      · rfl
      · simp only
        split
        · rfl
        · split
          · rfl
          · split
            · rfl
            · simp only
              split
              · split
                · exact registry_retainQueue _ _ _ _ _
                · rfl
              · split
                · exact registry_retainQueue _ _ _ _ _
                · rfl

theorem registry_subscribeLoop (ctx : Context) (identifier : Nat) (filters : List SubscribeFilter)
    (payload : Bytes) (c : CtxId) (b : State) :
    (subscribeLoop env c ctx identifier filters payload b).2.registry = b.registry := by
  induction filters generalizing payload b with
  | nil => rfl
  | cons f filters ih =>
    have hone := @registry_subscribeOne env ctx identifier f c b
    unfold subscribeLoop
    split
    · rename_i rc b₁ heq
      rw [heq] at hone
      exact hone
    · rename_i code b₁ heq
      rw [heq] at hone
      exact (ih _ b₁).trans hone

theorem quiet_subscribeDone (mid : UInt16) (payload : Bytes) (m : Machine) :
    Quiet m (subscribeDone env mid payload m).2 := by
  have hack := @quiet_sendCommand env.net (.suback mid payload) m
  unfold subscribeDone
  simp only
  split
  · split
    · exact hack.trans (quiet_of_rests (rests_messageWriteQueuedOut _))
    · exact (hack.trans (quiet_of_rests (rests_messageWriteQueuedOut _))).trans
        (quiet_of_rests (rests_messageWriteInflightOutLatest _))
  · exact hack

theorem registry_handleSubscribe (c : CtxId) (p : SubscribePacket) (b : State) :
    (handleSubscribe env c p b).2.registry = b.registry := by
  unfold handleSubscribe
  split
  · rfl
  · rename_i ctx hget
    split
    · rfl
    · split
      · rfl
      · split
        · rfl
        · rename_i identifier _
          have hloop := @registry_subscribeLoop env ctx identifier p.filters [] c b
          split
          · rename_i rc b₁ heq
            rw [heq] at hloop
            exact hloop
          · rename_i payload b₁ heq
            rw [heq] at hloop
            split
            · exact hloop
            · exact (registry_onClient (fun m => quiet_subscribeDone _ _ m) c b₁).trans hloop

theorem registry_unsubscribeLoop (ctx : Context) (filters : List SubscribeFilter) (reason : UInt8)
    (reasonCodes : Bytes) (c : CtxId) (b : State) :
    (unsubscribeLoop env c ctx filters reason reasonCodes b).2.registry = b.registry := by
  induction filters generalizing reason reasonCodes b with
  | nil => rfl
  | cons f filters ih =>
    unfold unsubscribeLoop
    split
    · rfl
    · rename_i sub hsub
      split
      · rfl
      · simp only
        split
        · rfl
        · have hmode : (if sub = ascii "latency" then b.modifyClient c (·.setMode .normalMode)
              else b).registry = b.registry := by
            split
            · exact registry_modifyClient (fun ctx => party_setMode ctx _) c b
            · rfl
          generalize (if sub = ascii "latency" then b.modifyClient c (·.setMode .normalMode)
            else b) = b₁ at hmode
          split
          · split
            · exact hmode
            · exact (ih _ _ _).trans hmode
          · split
            · exact hmode
            · exact (ih _ _ _).trans hmode

theorem registry_handleUnsubscribe (c : CtxId) (p : SubscribePacket) (b : State) :
    (handleUnsubscribe env c p b).2.registry = b.registry := by
  unfold handleUnsubscribe
  split
  · rfl
  · rename_i ctx hget
    split
    · rfl
    · split
      · rfl
      · split
        · rfl
        · have hloop := @registry_unsubscribeLoop env ctx p.filters 0 [] c b
          split
          · rename_i rc b₁ heq
            rw [heq] at hloop
            exact hloop
          · rename_i reasonCodes b₁ heq
            rw [heq] at hloop
            exact (registry_onClient (fun m => quiet_sendCommand _ m) c b₁).trans hloop

theorem registry_sendDisconnect (rc : Rc) (c : CtxId) (b : State) :
    (b.onClient c (sendDisconnect env rc)).2.registry = b.registry := by
  refine registry_onClient (fun m => ?_) c b
  unfold sendDisconnect
  split
  · split
    · exact quiet_sendCommand _ m
    · exact .refl m
  · exact .refl m

end Messages

end AdaptiveMqtt.Broker
