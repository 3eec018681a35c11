import AdaptiveMqtt.Broker.Steps

/-!
# Packets of a client as moves

`handle__publish`, `handle__pubrel`, the acknowledgements, `handle__subscribe` and
`handle__unsubscribe` are sequences of moves. A new message that `handle__publish` has
stored is referred to by someone before it returns: `sub__messages_queue` holds it, or the
client takes it in, which the checks before `db__message_store` ensure.
-/

namespace AdaptiveMqtt.Db

/-! ## Incoming messages as small steps -/

section In

variable {R : Rules} {m : Machine}

theorem writes_timestamp (now : Int) : Writes fun msg => { msg with timestamp := now } :=
  ⟨fun _ => rfl, fun _ h => h⟩

theorem steps_sendPubrec (ht : R.touch .mdIn) (mid : UInt16) (reasonCode : UInt8) (m : Machine) :
    Steps R m (sendPubrec R.net mid reasonCode m).2 := by
  unfold sendPubrec
  simp only
  split
  · exact (steps_shuffle ht (Shuffle.incrementQuota _)).trans (sends_sendCommand _ _).steps
  · exact (sends_sendCommand _ _).steps

theorem steps_sendPuback (ht : R.touch .mdIn) (mid : UInt16) (reasonCode : UInt8) (m : Machine) :
    Steps R m (sendPuback R.net mid reasonCode m).2 :=
  (steps_shuffle ht (Shuffle.incrementQuota _)).trans (sends_sendCommand _ _).steps

theorem steps_sendPubcomp (ht : R.touch .mdIn) (mid : UInt16) (m : Machine) :
    Steps R m (sendPubcomp R.net mid m).2 :=
  (steps_shuffle ht (Shuffle.incrementQuota _)).trans (sends_sendCommand _ _).steps

end In

/-- The incoming messages of a client, and what identifies it. -/
def Context.inward (ctx : Context) : MsgData × Context :=
  (ctx.msgsIn, { ctx.core with lastMid := 0 })

/-- An outgoing message leaves the incoming ones alone. -/
theorem inward_messageInsert (net : Net) {m : Machine} (hs : Sound .mdOut m) (mid : UInt16)
    (qos : Qos) (retain : Bool) (stored : MsgStore) (properties : List Property) (update : Bool) :
    (messageInsert net mid .mdOut qos retain stored properties update m).2.ctx.inward =
      m.ctx.inward := by
  let R : Rules :=
    { net, exact := false, slow := false, live := fun _ => True, touch := (· = .mdOut) }
  have hsteps : Steps R m (messageInsert R.net mid .mdOut qos retain stored properties update m).2 :=
    steps_messageInsert rfl ⟨hs, fun h => absurd h Bool.false_ne_true⟩ trivial mid qos retain
      properties update fun h => absurd h Bool.false_ne_true
  have hin := untouched_steps (d := .mdIn) (R := R) (fun h : Direction.mdIn = .mdOut => nomatch h) hsteps
  unfold Context.inward
  rw [(core_steps hsteps).2]
  exact Prod.ext hin rfl

end AdaptiveMqtt.Db

namespace AdaptiveMqtt.Broker

open Lib Topic AdaptiveMqtt.Sub Db

section In

variable {R : Rules} {m : Machine}

theorem steps_updateIncoming (ht : R.touch .mdIn) {f : ClientMsg → ClientMsg} (hf : Writes f)
    (addr : Nat) (m : Machine) : Steps R m (updateIncoming addr f m) :=
  steps_shuffle ht ((Shuffle.updateInflight hf _).trans (Shuffle.updateQueued hf _))

theorem steps_messageRemoveIncoming (ht : R.touch .mdIn) (mid : UInt16) (m : Machine) :
    Steps R m (messageRemoveIncoming mid m).2 := by
  unfold messageRemoveIncoming
  split
  · exact .refl
  · rename_i tail hfind
    split
    · exact .refl
    · exact .single (.removeIn ht (List.mem_map.mpr ⟨tail, List.mem_of_find?_eq_some hfind, rfl⟩))

theorem steps_writeQueuedInLoop (ht : R.touch .mdIn) (l : List ClientMsg) (m : Machine) :
    Steps R m (writeQueuedInLoop R.net l m).2 := by
  induction l generalizing m with
  | nil => exact .refl
  | cons tail rest ih =>
    unfold writeQueuedInLoop
    split
    · exact .refl
    · split
      · have hsend := ((steps_updateIncoming ht (writes_state (s := .sendPubrec) rfl) tail.addr m).trans
          (steps_shuffle ht (Shuffle.dequeueFirst _))).trans
          (steps_sendPubrec (R := R) ht tail.mid 0 _)
        simp only
        split
        · exact (hsend.trans (steps_updateIncoming ht (writes_state rfl) _ _)).trans (ih _)
        · exact hsend
      · exact ih m

theorem steps_messageWriteQueuedIn (ht : R.touch .mdIn) (m : Machine) :
    Steps R m (messageWriteQueuedIn R.net m).2 := by
  unfold messageWriteQueuedIn
  split
  · exact .refl
  · exact steps_writeQueuedInLoop ht _ m

theorem steps_releaseQueuedLoop (ht : R.touch .mdIn) (l : List ClientMsg) (i : Nat) (m : Machine) :
    Steps R m (releaseQueuedLoop R.net l i m) := by
  induction l generalizing i m with
  | nil => exact .refl
  | cons tail rest ih =>
    unfold releaseQueuedLoop
    split
    · exact .refl
    · have hstamp := steps_updateIncoming (R := R) ht (writes_timestamp m.db.nowS)
        tail.addr m
      simp only
      split
      · have hsend := (hstamp.trans (steps_sendPubrec (R := R) ht tail.mid 0 _)).trans
          (steps_updateIncoming ht (writes_state (s := .waitForPubrel) rfl) tail.addr _)
        exact (hsend.trans (steps_shuffle ht (Shuffle.dequeueFirst _))).trans (ih _ _)
      · exact hstamp.trans (ih _ _)

end In

/-! ## What passing a message on leaves alone -/

/-- The incoming messages of every client are as they were. -/
def SameIn (b b' : State) : Prop :=
  ∀ c, (b'.contexts.get c).map Context.inward = (b.contexts.get c).map Context.inward

section SameIn

variable {conn : CtxId → Prop} {b b' b'' : State}

theorem SameIn.trans (h : SameIn b b') (h' : SameIn b' b'') : SameIn b b'' :=
  fun c => (h' c).trans (h c)

theorem SameIn.get (h : SameIn b b') {c : CtxId} {ctx : Context}
    (hget : b.contexts.get c = some ctx) :
    ∃ ctx', b'.contexts.get c = some ctx' ∧ ctx'.inward = ctx.inward := by
  have hc := h c
  rw [hget, Option.map_some, Option.map_eq_some_iff] at hc
  exact hc

theorem sameIn_onClient {c : CtxId} {f : Machine → Rc × Machine}
    (hf : ∀ ctx, b.contexts.get c = some ctx → (f ⟨b.db, ctx⟩).2.ctx.inward = ctx.inward) :
    SameIn b (b.onClient c f).2 := by
  unfold State.onClient
  split
  · exact fun _ => rfl
  · rename_i ctx hget
    intro d
    show ((b.contexts.set c _).get d).map _ = _
    rw [Heap.get_set]
    split
    · rename_i hd
      rw [hd, hget, Option.map_some, Option.map_some, hf ctx hget]
    · rfl

/-- The terms under which `sub__messages_queue` runs. -/
def passing (env : Env) (conn : CtxId → Prop) : Terms :=
  { env, slow := fun _ => False, conn, leaving := fun _ => False, tidy := False }

theorem sameIn_subsSend (hw : Wf conn b) (env : Env) (topic : Bytes) (qos : Qos) (retain : Bool)
    (stored : MsgStore) (leaf : SubLeaf) :
    SameIn b (subsSend env topic qos retain stored leaf b).2 := by
  unfold subsSend
  split
  · exact fun _ => rfl
  · simp only
    split
    · exact fun _ => rfl
    · split
      · refine sameIn_onClient fun ctx hget => ?_
        obtain ⟨lastMid, hmid⟩ := midFor_eq (if b.db.config.upgradeOutgoingQos then leaf.qos
          else Qos.min qos leaf.qos) ⟨b.db, ctx⟩
        simp only [hmid]
        have hs := hw.sound hget .mdOut
        exact inward_messageInsert env.net (m := ⟨b.db, { ctx with lastMid }⟩)
          ⟨hs.nodup, hs.fresh⟩ _ _ _ _ _ _
      · exact fun _ => rfl

theorem sameIn_subSend (hw : Wf conn b) (env : Env) (sourceId topic : Bytes) (qos : Qos)
    (retain : Bool) (stored : MsgStore) (splitTopics : List Bytes) :
    SameIn b (subSend env sourceId topic qos retain stored splitTopics b).2 := by
  refine (keeps_searchRoot (P := fun b' => SameIn b b' ∧ Wf conn b') (fun _ _ leaf b' hb => ?_) _ _
    ⟨fun _ => rfl, hw⟩).1
  refine ⟨hb.1.trans (sameIn_subsSend hb.2 env topic qos retain stored leaf), ?_⟩
  exact wf_moves hb.2 (moves_subsSend (T := passing env conn) (w := ⟨b', [stored], none⟩) hb.2
    (fun _ h => h) topic qos retain List.mem_cons_self leaf)

theorem retainStore_contexts (stored : MsgStore) (splitTopics : List Bytes) (b : State) :
    (retainStore stored splitTopics b).contexts = b.contexts := by
  unfold retainStore setRetained
  simp only
  split <;> rfl

theorem sameIn_subMessagesQueue (hw : Wf conn b) (env : Env) (sourceId topic : Bytes) (qos : Qos)
    (retain : Bool) (stored : MsgStore) :
    SameIn b (subMessagesQueue env sourceId topic qos retain stored b).2 := by
  unfold subMessagesQueue
  simp only
  split
  · exact fun _ => rfl
  · rename_i splitTopics share htok
    have hw' : Wf conn { b with passed := b.passed ++ [stored]
                                db := b.db.msgStoreRefInc stored.addr } :=
      .of_clients (fun d hd => (hw.unused d hd).1) fun hg => (hw.client hg).mono le_rfl le_rfl rfl
    have hsend := sameIn_subSend hw' env sourceId topic qos retain stored splitTopics
    split
    · intro c
      show ((retainStore stored splitTopics _).contexts.get c).map _ = _
      rw [retainStore_contexts]
      exact hsend c
    · exact hsend

end SameIn

/-! ## PUBREL -/

section Release

variable {T : Terms} {w : World} {c : CtxId}

theorem onClient_get {b : State} {ctx : Context} (hget : b.contexts.get c = some ctx)
    (f : Machine → Rc × Machine) :
    (b.onClient c f).2.contexts.get c = some (f ⟨b.db, ctx⟩).2.ctx := by
  unfold State.onClient
  rw [hget]
  exact Heap.get_set_self _ _ _

/-- `sub__messages_queue` of a message that a client has. -/
theorem moves_queueListed (hw : Wf T.conn w.b) (hstay : ∀ c, ¬ T.leaving c)
    (sourceId topic : Bytes) (qos : Qos) (retain : Bool) {stored : MsgStore}
    (hlisted : w.Listed stored) :
    Moves T w (w.at (subMessagesQueue T.env sourceId topic qos retain stored w.b).2) := by
  refine moves_subMessagesQueue hw hstay sourceId topic qos retain w.fresh (.inl rfl)
    fun b hb => .single (.hold (w := w.at b) ?_)
  obtain ⟨d, ctx, dir, hget, hmem⟩ := hlisted
  exact ⟨d, ctx, dir, hb.contexts ▸ hget, hmem⟩

def InFlight (c : CtxId) (l : List ClientMsg) (b : State) : Prop :=
  ∃ ctx, b.contexts.get c = some ctx ∧ ∀ a ∈ l, a.key ∈ ctx.msgsIn.inflight.map ClientMsg.key

theorem MsgData.remove_inflight (md : MsgData) (item : ClientMsg) :
    (md.remove item).inflight = md.inflight.eraseP (·.addr = item.addr) := by
  unfold MsgData.remove
  split <;> rfl

theorem key_mem_eraseP {l : List ClientMsg} {a item : ClientMsg} (hne : a.addr ≠ item.addr)
    (ha : a.key ∈ l.map ClientMsg.key) :
    a.key ∈ (l.eraseP (·.addr = item.addr)).map ClientMsg.key := by
  obtain ⟨a', ha', hk⟩ := List.mem_map.mp ha
  have haddr : a'.addr = a.addr := congrArg (·.addr) hk
  exact List.mem_map.mpr ⟨a', (List.mem_eraseP_of_neg (by simpa [haddr] using hne)).mpr ha', hk⟩

theorem moves_releaseLoop (hstay : ∀ c, ¬ T.leaving c) (mid : UInt16) (l : List ClientMsg) :
    ∀ (deleted : Bool) (w : World), Wf T.conn w.b → (l.map (·.addr)).Nodup → InFlight c l w.b →
      Moves T w (w.at (releaseLoop T.env c mid l deleted w.b).2) := by
  induction l with
  | nil => exact fun _ _ _ _ _ => .refl
  | cons tail rest ih =>
    intro deleted w hw hnd hfly
    rw [List.map_cons, List.nodup_cons] at hnd
    obtain ⟨ctx, hget, hmem⟩ := hfly
    have hrest : ∀ a ∈ rest, a.key ∈ ctx.msgsIn.inflight.map ClientMsg.key :=
      fun a ha => hmem a (List.mem_cons_of_mem _ ha)
    unfold releaseLoop
    split
    · exact ih deleted w hw hnd.2 ⟨ctx, hget, hrest⟩
    · split
      · exact .refl
      · have hlisted : w.Listed tail.store := by
          obtain ⟨a, ha, hk⟩ := List.mem_map.mp (hmem tail List.mem_cons_self)
          exact ⟨c, ctx, .mdIn, hget, a, MsgData.mem_all.mpr (.inl ha), congrArg (·.store) hk⟩
        have hqueue := moves_queueListed hw hstay tail.store.sourceId tail.store.topic .q2
          tail.retain hlisted
        obtain ⟨ctx', hget', hin⟩ := (sameIn_subMessagesQueue hw T.env tail.store.sourceId
          tail.store.topic .q2 tail.retain tail.store).get hget
        have hmsgs : ctx'.msgsIn = ctx.msgsIn := congrArg Prod.fst hin
        simp only
        split
        · -- the message is removed, and the others are still in flight
          have hw' := wf_moves hw hqueue
          have hremove := moves_onClient (T := T) (w := w.at _) (hstay c)
            (f := fun m => (Rc.success, m.messageRemove .mdIn tail)) fun ctx'' hget'' => by
              cases hget'.symm.trans hget''
              refine .single (.removeIn trivial ?_)
              rw [hmsgs]
              exact hmem tail List.mem_cons_self
          refine (hqueue.trans hremove).trans (ih true (w.at _) (wf_moves hw' hremove) hnd.2
            ⟨_, onClient_get hget' _, fun a ha => ?_⟩)
          show a.key ∈ (ctx'.msgsIn.remove tail).inflight.map ClientMsg.key
          rw [MsgData.remove_inflight, hmsgs]
          exact key_mem_eraseP (fun e => hnd.1 (List.mem_map.mpr ⟨a, ha, e⟩)) (hrest a ha)
        · exact hqueue

theorem moves_messageReleaseIncoming (hw : Wf T.conn w.b) (hstay : ∀ c, ¬ T.leaving c)
    (mid : UInt16) : Moves T w (w.at (messageReleaseIncoming T.env c mid w.b).2) := by
  unfold messageReleaseIncoming
  split
  · exact .refl
  · rename_i ctx hget
    have hnd : (ctx.msgsIn.inflight.map (·.addr)).Nodup := by
      have h := (hw.sound hget .mdIn).nodup
      rw [Context.msgs, MsgData.all, List.append_assoc, List.map_append] at h
      exact (List.nodup_append.mp h).1
    have hloop := moves_releaseLoop hstay mid ctx.msgsIn.inflight false w hw hnd
      ⟨ctx, hget, fun a ha => List.mem_map.mpr ⟨a, ha, rfl⟩⟩
    split
    · rename_i rc b heq
      rw [heq] at hloop
      exact hloop
    · rename_i deleted b heq
      rw [heq] at hloop
      exact hloop.trans (moves_onClient (w := w.at b) (hstay c) fun ctx' _ =>
        steps_releaseQueuedLoop trivial _ _ _)

theorem moves_handlePubrel (hw : Wf T.conn w.b) (hstay : ∀ c, ¬ T.leaving c) (p : AckPacket) :
    Moves T w (w.at (handlePubrel T.env c p w.b).2) := by
  unfold handlePubrel
  split
  · exact .refl
  · split
    · exact .refl
    · split
      · exact .refl
      · rename_i mid _
        have hrelease := moves_messageReleaseIncoming (c := c) hw hstay mid
        simp only
        split
        · exact hrelease
        · exact hrelease.trans (moves_onClient (w := w.at _) (hstay c) fun ctx' _ =>
            steps_sendPubcomp trivial _ _)

end Release

/-! ## PUBLISH -/

section Publish

variable {T : Terms} {w : World} {c : CtxId} {ctx : Context}

theorem insertRefused_in {qos : Qos} {retain : Bool} {stored : MsgStore} {id : Bytes} {m : Machine}
    (hsock : m.ctx.sock ≠ none) : insertRefused .mdIn qos retain stored id m = none := by
  unfold insertRefused
  simp [hsock]

/-- `handle__publish` looks before it stores: a message it stores has a place. -/
theorem insertState_in (stored : MsgStore) {m : Machine} (hsock : m.ctx.sock ≠ none)
    (hready : readyForFlight m.db.config m.ctx .mdIn .q2 ∨
      readyForQueue m.db.config m.ctx .q2 m.ctx.msgsIn) :
    ∃ state rc, insertState .mdIn .q2 stored m = (.ok (state, rc), leaveSlowMode m) ∧
      (state = .storage → (leaveSlowMode m).ctx.mode = .slowMode) := by
  have hflight : readyForFlight (leaveSlowMode m).db.config (leaveSlowMode m).ctx .mdIn .q2 =
      readyForFlight m.db.config m.ctx .mdIn .q2 := by
    unfold leaveSlowMode Context.setMode
    simp only
    split
    · split <;> rfl
    · rfl
  have hqueue : readyForQueue (leaveSlowMode m).db.config (leaveSlowMode m).ctx .q2 m.ctx.msgsIn =
      readyForQueue m.db.config m.ctx .q2 m.ctx.msgsIn := by
    unfold leaveSlowMode Context.setMode
    simp only
    split
    · split <;> rfl
    · rfl
  unfold insertState
  simp only [if_pos hsock]
  split
  · rename_i hslow
    exact ⟨_, _, rfl, fun _ => hslow.2.1⟩
  · split
    · exact ⟨_, _, rfl, (nomatch ·)⟩
    · rename_i hno
      rw [hflight] at hno
      rw [if_pos ⟨by simp, by
        show readyForQueue _ _ _ m.ctx.msgsIn = true
        rw [hqueue]
        exact hready.resolve_left hno⟩]
      exact ⟨_, _, rfl, (nomatch ·)⟩

/-- The client takes a new message in. -/
theorem moves_takeIn (hstay : ¬ T.leaving c) (hget : w.b.contexts.get c = some ctx)
    {stored : MsgStore} (hfresh : w.fresh = some stored) (hid : ctx.id ≠ none)
    (hsock : ctx.sock ≠ none)
    (hready : readyForFlight w.b.db.config ctx .mdIn .q2 ∨
      readyForQueue w.b.db.config ctx .q2 ctx.msgsIn) (mid : UInt16) (retain : Bool) :
    Moves T w ⟨(w.b.onClient c (messageInsert T.env.net mid .mdIn .q2 retain stored [] false)).2,
      w.held, none⟩ := by
  obtain ⟨id, hid'⟩ := Option.ne_none_iff_exists'.mp hid
  obtain ⟨state, rc, hstate, hmode⟩ := insertState_in stored (m := ⟨w.b.db, ctx⟩)
    hsock hready
  have hslow : Frame (w.rules T false) ⟨w.b.db, ctx⟩ (leaveSlowMode ⟨w.b.db, ctx⟩) :=
    frame_leaveSlowMode _
  obtain ⟨msg, m₁, hf, hctx, haddr, hst, hms, -, heq⟩ := insertMsg_eq (R := w.rules T false) mid
    .mdIn .q2 retain stored [] state (leaveSlowMode ⟨w.b.db, ctx⟩)
  have hinsert : messageInsert T.env.net mid .mdIn .q2 retain stored [] false ⟨w.b.db, ctx⟩ =
      (rc, insertAfter .mdIn .q2 retain stored id (placeMsg .mdIn msg .q2 m₁)) := by
    unfold messageInsert
    simp only [hid', insertRefused_in (m := ⟨w.b.db, ctx⟩) hsock, hstate, heq]
    rw [if_neg (by simp)]
  have hfirst : Moves T w (w.put c m₁) :=
    moves_client hget (.refl T c ctx) rfl (fun h => absurd h Bool.false_ne_true) hstay
      (fun _ h => h) ((steps_frame hslow).trans (steps_frame hf))
  have hid₁ : m₁.ctx.id ≠ none := by
    rw [hctx, Context.of_core (·.id) (fun _ => rfl) hslow.core]
    exact hid
  have hplace := Move.takeIn (T := T) (w := w.put c m₁) .q2 (put_get m₁)
    (show w.fresh = some msg.store from hst ▸ hfresh) hid₁ haddr fun h => hctx ▸ hmode (hms ▸ h)
  rw [put_put] at hplace
  let w₂ : World := ⟨(w.put c (placeMsg .mdIn msg .q2 m₁)).b, w.held, none⟩
  have hafter := moves_client (T := T) (w := w₂) (put_get (w := w) _) (.refl T c _)
    (R := w₂.rules T false) rfl (fun h => absurd h Bool.false_ne_true) hstay (fun _ h => h)
    (steps_insertAfter (show (w₂.rules T false).touch .mdIn from trivial) .q2 retain stored id _)
  have hend : (w.b.onClient c (messageInsert T.env.net mid .mdIn .q2 retain stored [] false)).2 =
      (w₂.put c (insertAfter .mdIn .q2 retain stored id (placeMsg .mdIn msg .q2 m₁))).b := by
    have hput := put_put (w := w) (c := c) (placeMsg .mdIn msg .q2 m₁)
      (insertAfter .mdIn .q2 retain stored id (placeMsg .mdIn msg .q2 m₁))
    unfold State.onClient
    simp only [hget, hinsert]
    exact (congrArg World.b hput).symm
  rw [hend]
  exact (hfirst.tail hplace).trans hafter

theorem fieldsOnly_msgsIn {md : MsgData} (hi : md.inflight = ctx.msgsIn.inflight)
    (hq : md.queued = ctx.msgsIn.queued) (hs : md.storage = ctx.msgsIn.storage) :
    FieldsOnly T c ctx { ctx with msgsIn := md } := by
  refine ⟨fun d => ?_, rfl, rfl, rfl, .inl rfl, .inl rfl, .inl rfl, fun h => h, fun h => h,
    fun h => h, rfl, fun h => h⟩
  cases d
  · exact ⟨hi, hq, hs⟩
  · exact ⟨rfl, rfl, rfl⟩

theorem fieldsOnly_decrementQuota :
    FieldsOnly T c ctx { ctx with msgsIn := ctx.msgsIn.decrementQuota } := by
  unfold MsgData.decrementQuota
  split
  · exact fieldsOnly_msgsIn rfl rfl rfl
  · exact .refl T c ctx

theorem listed_modify {f : Context → Context} {s : MsgStore} (hlisted : w.Listed s)
    (hf : ∀ ctx, w.b.contexts.get c = some ctx → FieldsOnly T c ctx (f ctx)) :
    (w.at (w.b.modifyClient c f)).Listed s := by
  obtain ⟨d, ctx, dir, hget, msg, hmem, hs⟩ := hlisted
  by_cases hd : d = c
  · subst hd
    refine ⟨d, f ctx, dir, ?_, msg, ?_, hs⟩
    · show (w.b.contexts.modify d f).get d = _
      rw [Heap.get_modify, if_pos rfl, hget, Option.map_some]
    · rw [(hf ctx hget).all dir]
      exact hmem
  · exact ⟨d, ctx, dir, (Heap.get_modify_ne _ _ hd).trans hget, msg, hmem, hs⟩

/-- The message at hand is a new one, or one that a client has. -/
def Offered (w : World) (stored : MsgStore) : Prop :=
  (w.fresh = some stored ∧ ∃ r, subTopicTokenise stored.topic = .ok r) ∨
    (w.fresh = none ∧ w.Listed stored)

theorem moves_queueOffered (hw : Wf T.conn w.b) (hstay : ∀ c, ¬ T.leaving c) (sourceId : Bytes)
    (qos : Qos) {stored : MsgStore} (ho : Offered w stored) :
    Moves T w ⟨(subMessagesQueue T.env sourceId stored.topic qos stored.retain stored w.b).2,
      w.held, none⟩ := by
  rcases ho with ⟨hfresh, htok⟩ | ⟨hfresh, hlisted⟩
  · exact moves_subMessagesQueue hw hstay sourceId stored.topic qos stored.retain none (.inr htok)
      fun b hb => .single (.holdFresh hfresh)
  · have hmoves := moves_queueListed hw hstay sourceId stored.topic qos stored.retain hlisted
    rw [World.at, hfresh] at hmoves
    exact hmoves

theorem moves_publishQos1 (hw : Wf T.conn w.b) (hstay : ∀ c, ¬ T.leaving c) {stored : MsgStore}
    (ho : Offered w stored) (mid : UInt16) :
    Moves T w ⟨(publishQos1 T.env c ctx stored mid w.b).2, w.held, none⟩ := by
  let dec : Context → Context := fun ctx => { ctx with msgsIn := ctx.msgsIn.decrementQuota }
  have hdec : Moves T w (w.at (w.b.modifyClient c dec)) :=
    moves_modify fun _ _ => fieldsOnly_decrementQuota
  have ho' : Offered (w.at (w.b.modifyClient c dec)) stored := by
    rcases ho with ho | ⟨hfresh, hlisted⟩
    · exact .inl ho
    · exact .inr ⟨hfresh, listed_modify (T := T) hlisted fun _ _ => fieldsOnly_decrementQuota⟩
  have hqueue := hdec.trans (moves_queueOffered (wf_moves hw hdec) hstay (ctx.id.getD []) .q1 ho')
  unfold publishQos1
  simp only
  split
  · exact hqueue.trans (moves_onClient (w := ⟨_, _, _⟩) (hstay c) fun _ _ =>
      steps_sendPuback trivial _ _ _)
  · split
    · exact hqueue.trans (moves_onClient (w := ⟨_, _, _⟩) (hstay c) fun _ _ =>
        steps_sendPuback trivial _ _ _)
    · exact hqueue

/-- The client has an open socket, and a place for an incoming message of QoS 2. -/
def Takes (b : State) (c : CtxId) : Prop :=
  ∃ ctx, b.contexts.get c = some ctx ∧ ctx.id ≠ none ∧ ctx.sock ≠ none ∧
    (readyForFlight b.db.config ctx .mdIn .q2 ∨ readyForQueue b.db.config ctx .q2 ctx.msgsIn)

theorem moves_publishQos2 (hstay : ∀ c, ¬ T.leaving c) {stored : MsgStore} (hqos : stored.qos = .q2)
    {dup : Bool} (hdup : dup = true → w.fresh = none)
    (hnew : dup = false → w.fresh = some stored ∧ Takes w.b c) :
    Moves T w ⟨(publishQos2 T.env c stored dup w.b).2, w.held, none⟩ := by
  have hinsert : Moves T w ⟨(if dup = true then (Rc.success, w.b) else w.b.onClient c
      (messageInsert T.env.net stored.sourceMid .mdIn stored.qos stored.retain stored [] false)).2,
      w.held, none⟩ := by
    split
    · rename_i hd
      rw [← hdup hd]
    · rename_i hd
      obtain ⟨hfresh, ctx, hget, hid, hsock, hready⟩ := hnew (by simpa using hd)
      rw [hqos]
      exact moves_takeIn (hstay c) hget hfresh hid hsock hready stored.sourceMid stored.retain
  unfold publishQos2
  generalize (if dup = true then (Rc.success, w.b) else w.b.onClient c
    (messageInsert T.env.net stored.sourceMid .mdIn stored.qos stored.retain stored [] false)) = r
    at hinsert ⊢
  simp only
  split
  · exact hinsert.trans (moves_onClient (w := ⟨_, _, _⟩) (hstay c) fun _ _ =>
      steps_sendPubrec trivial _ _ _)
  · exact hinsert

theorem moves_publishStored (ctx : Context) (hw : Wf T.conn w.b) (hstay : ∀ c, ¬ T.leaving c)
    {stored : MsgStore}
    (ho : Offered w stored) {dup : Bool} (hdup : dup = true → w.fresh = none)
    (hnew : dup = false → w.fresh = some stored ∧ (stored.qos = .q2 → Takes w.b c))
    (mid : UInt16) :
    Moves T w ⟨(publishStored T.env c ctx stored mid dup w.b).2, w.held, none⟩ := by
  have hend : ∀ b, Moves T w ⟨b, w.held, none⟩ →
      Moves T w ⟨(b.onClient c (messageWriteQueuedIn T.env.net)).2, w.held, none⟩ := fun b hb =>
    hb.trans (moves_onClient (w := ⟨_, _, _⟩) (hstay c) fun _ _ =>
      steps_messageWriteQueuedIn trivial _)
  unfold publishStored
  simp only
  split
  · exact hend _ (moves_queueOffered hw hstay _ _ ho)
  · exact hend _ (moves_publishQos1 hw hstay ho mid)
  · rename_i hqos
    exact hend _ (moves_publishQos2 hstay hqos hdup fun hd => ⟨(hnew hd).1, (hnew hd).2 hqos⟩)

theorem moves_processBadMessage (hstay : ∀ c, ¬ T.leaving c) (msg : NewMsg) (reasonCode : UInt8) :
    Moves T w (w.at (processBadMessage T.env c msg reasonCode w.b).2) := by
  unfold processBadMessage
  split
  · exact .refl
  · exact moves_onClient (hstay c) fun _ _ => steps_sendPuback trivial _ _ _
  · exact moves_onClient (hstay c) fun _ _ => steps_sendPubrec trivial _ _ _

theorem moves_controlProcess (hstay : ∀ c, ¬ T.leaving c) (msg : NewMsg) :
    Moves T w (w.at (controlProcess T.env c msg w.b).2) := by
  unfold controlProcess
  split
  · exact .refl
  · exact moves_onClient (hstay c) fun _ _ => steps_sendPuback trivial _ _ _
  · exact moves_onClient (hstay c) fun _ _ => steps_sendPubrec trivial _ _ _

theorem messageStoreFind_mem {md : MsgData} {mid : UInt16} {s : MsgStore}
    (h : messageStoreFind md mid = some s) : ∃ a ∈ md.all, a.store = s := by
  unfold messageStoreFind at h
  obtain ⟨a, ha, hs⟩ := Option.map_eq_some_iff.mp h
  rcases Option.or_eq_some_iff.mp ha with ha | ⟨-, ha⟩
  · exact ⟨a, MsgData.mem_all.mpr (.inl (List.mem_of_find?_eq_some ha)), hs⟩
  · exact ⟨a, MsgData.mem_all.mpr (.inr (.inl (List.mem_of_find?_eq_some ha))), hs⟩

/-- What `findStored` leaves: the client with its socket and id, and a message it has. -/
theorem findStored_spec (hstay : ∀ c, ¬ T.leaving c) (hget : w.b.contexts.get c = some ctx)
    (msg : NewMsg) :
    Moves T w (w.at (findStored c msg w.b).2) ∧
    (∃ ctx', (findStored c msg w.b).2.contexts.get c = some ctx' ∧ ctx'.core = ctx.core) ∧
    ∀ s, (findStored c msg w.b).1 = some s → (w.at (findStored c msg w.b).2).Listed s := by
  have hsteps : ∀ ctx, Steps (w.rules T false) ⟨w.b.db, ctx⟩
      (messageRemoveIncoming msg.sourceMid ⟨w.b.db, ctx⟩).2 := fun ctx =>
    steps_messageRemoveIncoming trivial _ _
  have hfound : ∀ s, (if msg.qos ≠ .q0 then (w.b.contexts.get c).bind fun ctx =>
      messageStoreFind ctx.msgsIn msg.sourceMid else none) = some s → w.Listed s := by
    intro s hs
    split at hs
    · rw [hget] at hs
      exact ⟨c, ctx, .mdIn, hget, messageStoreFind_mem hs⟩
    · cases hs
  unfold findStored
  generalize (if msg.qos ≠ .q0 then (w.b.contexts.get c).bind fun ctx =>
    messageStoreFind ctx.msgsIn msg.sourceMid else none) = stored at hfound ⊢
  simp only
  split
  · exact ⟨moves_onClient (hstay c) fun ctx _ => hsteps ctx,
      ⟨_, onClient_get hget _, (core_steps (hsteps ctx)).2⟩, fun _ h => by cases h⟩
  · exact ⟨.refl, ⟨ctx, hget, rfl⟩, hfound⟩

theorem moves_acceptPublish (hw : Wf T.conn w.b) (hstay : ∀ c, ¬ T.leaving c)
    (hfresh : w.fresh = none) (hget : w.b.contexts.get c = some ctx) (hid : ctx.id ≠ none)
    (hsock : ctx.sock ≠ none) {msg : NewMsg} (htok : ∃ r, subTopicTokenise msg.topic = .ok r)
    (expiry : Nat) : Moves T w (w.at (acceptPublish T.env c msg expiry w.b).2) := by
  obtain ⟨hmoves, ⟨ctx', hget', hcore⟩, hlisted⟩ := findStored_spec hstay hget msg
  have hw' := wf_moves hw hmoves
  unfold acceptPublish
  generalize findStored c msg w.b = r at hmoves hget' hlisted hw'
  obtain ⟨found, b⟩ := r
  simp only at hmoves hget' hlisted hw' ⊢
  rw [hget']
  simp only
  -- the new state with nothing fresh in it
  have hnone : ∀ b', (⟨b', w.held, none⟩ : World) = w.at b' := fun b' => by rw [World.at, hfresh]
  cases found with
  | some stored =>
    simp only
    rw [← hnone]
    exact hmoves.trans (moves_publishStored ctx' (w := w.at b) hw' hstay (.inr ⟨hfresh, hlisted _ rfl⟩)
      (fun _ => hfresh) (absurd · Bool.false_ne_true.symm) _)
  | none =>
    simp only
    split
    · rename_i hready
      let s := (messageStore (some ctx') msg expiry b.db).1
      have hstore := Move.store (T := T) (w := w.at b) (s := s) hfresh rfl
      have hpub := moves_publishStored (c := c) ctx' (w := ⟨_, _, some s⟩)
        (wf_moves hw' (.single hstore)) hstay (.inl ⟨rfl, htok⟩) (absurd · Bool.false_ne_true)
        (fun _ => ⟨rfl, fun hq => ?_⟩) msg.sourceMid
      · rw [← hnone]
        exact hmoves.trans (.head hstore hpub)
      have hq' : msg.qos = .q2 := hq
      rw [hq'] at hready
      refine ⟨ctx', hget', ?_, ?_, hready.resolve_left (by decide)⟩
      · rw [Context.of_core (·.id) (fun _ => rfl) hcore]
        exact hid
      · rw [Context.of_core (·.sock) (fun _ => rfl) hcore]
        exact hsock
    · exact hmoves.trans (moves_processBadMessage (w := w.at b) hstay _ _)

theorem readPublish_topic {config : Config} {ctx : Context} {p : PublishPacket} {msg : NewMsg}
    {expiry : Nat} (h : readPublish config ctx p = .ok (msg, expiry)) : msg.topic ≠ [] := by
  have hcheck : ∀ topic, p.mapped >>= checkTopic = .ok topic → topic ≠ [] := by
    intro topic ht
    cases hm : p.mapped with
    | error rc =>
      rw [hm] at ht
      cases ht
    | ok t =>
      rw [hm] at ht
      change checkTopic t = .ok topic at ht
      unfold checkTopic at ht
      split at ht
      · cases ht
      · rename_i hne
        cases ht
        exact fun he => hne (.inl he)
  unfold readPublish at h
  generalize p.mapped >>= checkTopic = mapped at h hcheck
  simp only [bind, Except.bind, pure, Except.pure, throw, throwThe, MonadExceptOf.throw] at h
  cases mapped with
  | error rc =>
    simp only at h
    repeat' split at h
    all_goals cases h
  | ok topic =>
    have hne : ctx.mountPoint.getD [] ++ topic ≠ [] :=
      List.append_ne_nil_of_right_ne_nil _ (hcheck topic rfl)
    simp only at h
    repeat' split at h
    all_goals
      cases h
      try exact hne

theorem moves_handlePublish (hw : Wf T.conn w.b) (hstay : ∀ c, ¬ T.leaving c)
    (hfresh : w.fresh = none) (hsock : w.b.connected c) (p : PublishPacket) :
    Moves T w (w.at (handlePublish T.env c p w.b).2) := by
  unfold handlePublish
  split
  · exact .refl
  · rename_i ctx hget
    have hsock' : ctx.sock ≠ none := by
      rw [State.connected, hget] at hsock
      exact Option.isSome_iff_ne_none.mp hsock
    split
    · exact .refl
    · split
      · exact .refl
      · rename_i msg expiry hread
        split
        · exact moves_processBadMessage hstay _ _
        · simp only
          split
          · exact moves_processBadMessage hstay _ _
          · split
            · exact .refl
            · split
              · exact moves_controlProcess hstay _
              · rename_i hacl _
                obtain ⟨hid, htok⟩ := of_aclCheck (hw.plain hget).1 (readPublish_topic hread)
                  (not_not.mp hacl)
                exact moves_acceptPublish hw hstay hfresh hget hid hsock' htok expiry

end Publish

/-! ## Acknowledgements and subscriptions -/

section Subscribe

variable {T : Terms} {w : World} {c : CtxId} {ctx : Context}

/-- Only a PUBACK can send a client to slow mode. -/
theorem moves_handlePubackcomp (hw : Wf T.conn w.b) (hstay : ∀ c, ¬ T.leaving c) (type : AckType)
    (p : AckPacket) (hslow : T.slow c ∨
      ∀ ctx, w.b.contexts.get c = some ctx → Unhurried type p ⟨w.b.db, ctx⟩) :
    Moves T w (w.at (w.b.onClient c (handlePubackcomp T.env.net type p)).2) := by
  unfold State.onClient World.at
  split
  · exact .refl
  · rename_i ctx hget
    rcases hslow with hslow | hslow
    · exact moves_client hget (.refl T c ctx) (R := w.rules T true) rfl (fun _ => hslow) (hstay c)
        (fun _ h => h) (steps_handlePubackcomp trivial (ready_of_wf hw hget true) type p
          fun h => absurd h.symm Bool.false_ne_true)
    · exact moves_client hget (.refl T c ctx) (R := w.rules T false) rfl
        (fun h => absurd h Bool.false_ne_true) (hstay c) (fun _ h => h)
        (steps_handlePubackcomp trivial (ready_of_wf hw hget false) type p
          fun _ => hslow ctx hget)

theorem moves_handlePubrec (hw : Wf T.conn w.b) (hstay : ∀ c, ¬ T.leaving c) (p : AckPacket) :
    Moves T w (w.at (w.b.onClient c (handlePubrec T.env.net p)).2) :=
  moves_onClient (hstay c) fun _ hget => steps_handlePubrec trivial (ready_of_wf hw hget false) p

theorem aside_subs (b : State) (subs : SubWorld) : Aside b { b with subs } :=
  ⟨rfl, rfl, fun _ => rfl, rfl, rfl, fun _ => rfl, fun _ => rfl, fun _ h => .inl h⟩

theorem moves_subscribeOne (ctx : Context) (hw : Wf T.conn w.b) (hstay : ∀ c, ¬ T.leaving c)
    (identifier : Nat)
    (f : SubscribeFilter) :
    Moves T w (w.at (subscribeOne T.env c ctx identifier f w.b).2) := by
  unfold subscribeOne
  split
  · exact .refl
  · exact .refl
  · split
    · exact .refl
    · split
      · exact .refl
      · rename_i qos options retainHandling _
        simp only
        split
        · exact .refl
        · split
          · exact .refl
          · have hadd : ∀ (sub : Bytes),
                Moves T w (w.at (w.b.subAdd c ctx.protocol sub qos identifier options).2) :=
              fun sub => moves_aside (aside_subs _ _)
            have hret : ∀ (wanted : Bool) (sub : Bytes) (i : Nat), Moves T w (w.at
                (if wanted = true then (retainQueue T.env c sub qos i
                  (w.b.subAdd c ctx.protocol sub qos identifier options).2).2
                else (w.b.subAdd c ctx.protocol sub qos identifier options).2)) := by
              intro wanted sub i
              split
              · exact (hadd sub).trans (moves_retainQueue (wf_moves hw (hadd sub)) hstay c sub qos i)
              · exact hadd sub
            split
            · exact hadd _
            · exact hret _ _ _

theorem moves_subscribeLoop (ctx : Context) (hstay : ∀ c, ¬ T.leaving c) (identifier : Nat)
    (filters : List SubscribeFilter) : ∀ (payload : Bytes) (w : World), Wf T.conn w.b →
      Moves T w (w.at (subscribeLoop T.env c ctx identifier filters payload w.b).2) := by
  induction filters with
  | nil => exact fun _ _ _ => .refl
  | cons f filters ih =>
    intro payload w hw
    have hone := moves_subscribeOne (c := c) ctx hw hstay identifier f
    unfold subscribeLoop
    split
    · rename_i rc b heq
      rw [heq] at hone
      exact hone
    · rename_i code b heq
      rw [heq] at hone
      exact hone.trans (ih _ (w.at b) (wf_moves hw hone))

theorem steps_subscribeDone {R : Rules} {m : Machine} {env : Env} (hnet : R.net = env.net)
    (ht : R.touch .mdOut) (h : Ready R m) (mid : UInt16) (payload : Bytes) :
    Steps R m (subscribeDone env mid payload m).2 := by
  have hsend : Steps R m (sendCommand R.net (.suback mid payload) m).2 := (sends_sendCommand _ m).steps
  have hqueued := hsend.trans (steps_messageWriteQueuedOut ht _)
  unfold subscribeDone
  rw [← hnet]
  simp only
  split
  · split
    · exact hqueued
    · exact hqueued.trans (steps_messageWriteInflightOutLatest ht (h.steps hqueued))
  · exact hsend

theorem moves_handleSubscribe (hw : Wf T.conn w.b) (hstay : ∀ c, ¬ T.leaving c)
    (p : SubscribePacket) : Moves T w (w.at (handleSubscribe T.env c p w.b).2) := by
  unfold handleSubscribe
  split
  · exact .refl
  · rename_i ctx hget
    split
    · exact .refl
    · split
      · exact .refl
      · split
        · exact .refl
        · rename_i mid _ _ _ identifier _
          have hloop := moves_subscribeLoop (c := c) ctx hstay identifier p.filters [] w hw
          split
          · rename_i rc b heq
            rw [heq] at hloop
            exact hloop
          · rename_i payload b heq
            rw [heq] at hloop
            split
            · exact hloop
            · exact hloop.trans (moves_onClient (w := w.at b) (hstay c) fun ctx' hget' =>
                steps_subscribeDone rfl trivial (ready_of_wf (wf_moves hw hloop) hget' false) mid
                  payload)

theorem fieldsOnly_setMode : FieldsOnly T c ctx (ctx.setMode .normalMode) := by
  unfold Context.setMode
  split
  · exact ⟨fun d => by cases d <;> exact ⟨rfl, rfl, rfl⟩, rfl, rfl, rfl, .inl rfl, .inr rfl,
      .inl rfl, fun h => h, fun h => h, fun h => h, rfl, fun h => h⟩
  · exact .refl T c ctx

theorem moves_unsubscribeLoop (ctx : Context) (filters : List SubscribeFilter) :
    ∀ (reason : UInt8) (reasonCodes : Bytes) (w : World),
      Moves T w (w.at (unsubscribeLoop T.env c ctx filters reason reasonCodes w.b).2) := by
  induction filters with
  | nil => exact fun _ _ _ => .refl
  | cons f filters ih =>
    intro reason reasonCodes w
    unfold unsubscribeLoop
    split
    · exact .refl
    · rename_i sub _
      split
      · exact .refl
      · simp only
        split
        · exact .refl
        · have hmode : Moves T w (w.at (if sub = ascii "latency" then
              w.b.modifyClient c (·.setMode .normalMode) else w.b)) := by
            split
            · exact moves_modify fun _ _ => fieldsOnly_setMode
            · exact .refl
          generalize (if sub = ascii "latency" then
            w.b.modifyClient c (·.setMode .normalMode) else w.b) = b at hmode ⊢
          have hremove : Moves T w (w.at (if mosquittoAclCheck T.env ctx sub [] .q0 false
              .unsubscribe = Rc.success then b.subRemove c sub reason
              else (Rc.success, 0x87, b)).2.2) := by
            split
            · exact hmode.trans (moves_aside (w := w.at b) (aside_subs _ _))
            · exact hmode
          generalize (if mosquittoAclCheck T.env ctx sub [] .q0 false .unsubscribe = Rc.success then
            b.subRemove c sub reason else (Rc.success, 0x87, b)) = r at hremove ⊢
          split
          · exact hremove
          · exact hremove.trans (ih _ _ (w.at r.2.2))

theorem moves_handleUnsubscribe (hstay : ∀ c, ¬ T.leaving c) (p : SubscribePacket) :
    Moves T w (w.at (handleUnsubscribe T.env c p w.b).2) := by
  unfold handleUnsubscribe
  split
  · exact .refl
  · rename_i ctx hget
    split
    · exact .refl
    · split
      · exact .refl
      · split
        · exact .refl
        · have hloop := moves_unsubscribeLoop (T := T) (c := c) ctx p.filters 0 [] w
          split
          · rename_i rc b heq
            rw [heq] at hloop
            exact hloop
          · rename_i reasonCodes b heq
            rw [heq] at hloop
            exact hloop.trans (moves_onClient (w := w.at b) (hstay c) fun _ _ =>
              (sends_sendCommand _ _).steps)

end Subscribe

end AdaptiveMqtt.Broker
