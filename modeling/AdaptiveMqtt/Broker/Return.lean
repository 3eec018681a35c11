import AdaptiveMqtt.Broker.Leave
import AdaptiveMqtt.Db.Reset

/-!
# Clients that come back

A CONNECT and the other events as moves. A client that takes a session over does so in a
first part of the event, at whose end the old connection is closed.
-/

namespace AdaptiveMqtt.Broker

open Lib AdaptiveMqtt.Sub Db

/-! ## Resetting -/

section Reset

variable {T : Terms} {w : World} {c : CtxId} {m : Machine}

theorem setMsgs_setMsgs (dir : Direction) (md md' : MsgData) (ctx : Context) :
    (ctx.setMsgs dir md).setMsgs dir md' = ctx.setMsgs dir md' := by
  cases dir <;> rfl

theorem setMsgs_self (dir : Direction) (ctx : Context) : ctx.setMsgs dir (ctx.msgs dir) = ctx := by
  cases dir <;> rfl

/-- The loop over the queue writes to the lists of its direction. -/
theorem resetQueuedLoop_eq (config : Config) (dir : Direction) (l : List ClientMsg)
    (ctx : Context) : resetQueuedLoop config dir l ctx =
      ctx.setMsgs dir ((resetQueuedLoop config dir l ctx).msgs dir) := by
  induction l generalizing ctx with
  | nil => exact (setMsgs_self dir ctx).symm
  | cons msg rest ih =>
    have hround : ∀ md : MsgData, resetQueuedLoop config dir rest (ctx.setMsgs dir md) =
        ctx.setMsgs dir ((resetQueuedLoop config dir rest (ctx.setMsgs dir md)).msgs dir) :=
      fun md => (ih _).trans (setMsgs_setMsgs dir md _ ctx)
    unfold resetQueuedLoop
    simp only
    split
    · rw [setMsgs_setMsgs]
      exact hround _
    · exact hround _

theorem moves_resetQueued (config : Config) (dir : Direction) (l : List ClientMsg) :
    Moves T (w.put c m) (w.put c { m with ctx := resetQueuedLoop config dir l m.ctx }) := by
  rw [resetQueuedLoop_eq]
  exact moves_regroup (resetQueuedLoop_spec config dir l m.ctx).1.perm

theorem moves_resetOutgoing :
    Moves T (w.put c m) (w.put c { m with ctx := reconnectResetOutgoing m.db.config m.ctx }) := by
  have hin := @moves_regroup T w c .mdOut m
    (resetInflightOutLoop m.ctx.msgsOut.inflight m.ctx.msgsOut.restart)
    (resetInflightOutLoop_spec m.ctx.msgsOut.inflight m.ctx.msgsOut.restart).perm
  exact hin.trans (moves_resetQueued m.db.config .mdOut m.ctx.msgsOut.queued)

/-- Incoming messages of QoS 1 in flight are dropped. -/
theorem moves_resetInflightIn (hstay : ¬ T.leaving c) (l : List ClientMsg) : ∀ m : Machine,
    (l.map (·.addr)).Nodup →
    (∀ a ∈ l, a.key ∈ m.ctx.msgsIn.inflight.map ClientMsg.key) →
      Moves T (w.put c m) (w.put c (resetInflightInLoop l m)) := by
  induction l with
  | nil => exact fun _ _ _ => .refl
  | cons msg rest ih =>
    intro m hnd hmem
    rw [List.map_cons, List.nodup_cons] at hnd
    have hrest := fun a ha => hmem a (List.mem_cons_of_mem _ ha)
    obtain ⟨hcin, -, -⟩ := count_lists m.ctx.msgsIn msg msg.qos
    have hdin := (decrementQuota_fields (m.ctx.msgsIn.count msg msg.qos)).1
    have hcount := @moves_regroup T w c .mdIn m (if msg.qos ≠ .q0
      then (m.ctx.msgsIn.count msg msg.qos).decrementQuota else m.ctx.msgsIn.count msg msg.qos)
      (counts_inflight msg m.ctx.msgsIn).perm
    have hinflight : (if msg.qos ≠ .q0 then (m.ctx.msgsIn.count msg msg.qos).decrementQuota
        else m.ctx.msgsIn.count msg msg.qos).inflight = m.ctx.msgsIn.inflight := by
      split
      · exact hdin.trans hcin
      · exact hcin
    generalize hmd : (if msg.qos ≠ .q0 then (m.ctx.msgsIn.count msg msg.qos).decrementQuota
      else m.ctx.msgsIn.count msg msg.qos) = md at hcount hinflight
    have hrun : resetInflightInLoop (msg :: rest) m = resetInflightInLoop rest
        (if msg.qos ≠ .q2 then (m.onMsgs .mdIn fun _ => md).messageRemove .mdIn msg
          else m.onMsgs .mdIn fun _ => md) := by
      rw [← hmd]
      rfl
    rw [hrun]
    refine hcount.trans ?_
    split
    · have hgone := Move.micro (T := T) (w := w.put c (m.onMsgs .mdIn fun _ => md))
        ((w.put c (m.onMsgs .mdIn fun _ => md)).rules T false) (put_get _) rfl
        (fun h => absurd h Bool.false_ne_true) hstay (fun _ h => h)
        (@Micro.removeIn _ _ msg trivial (by
          show msg.key ∈ md.inflight.map ClientMsg.key
          rw [hinflight]
          exact hmem msg List.mem_cons_self))
      rw [put_put] at hgone
      refine .head hgone (ih _ hnd.2 fun a ha => ?_)
      show a.key ∈ (md.remove msg).inflight.map ClientMsg.key
      rw [MsgData.remove_inflight, hinflight]
      exact key_mem_eraseP (fun e => hnd.1 (List.mem_map.mpr ⟨a, ha, e⟩)) (hrest a ha)
    · refine ih _ hnd.2 fun a ha => ?_
      show a.key ∈ md.inflight.map ClientMsg.key
      rw [hinflight]
      exact hrest a ha

/-- **The reset of a session that is taken over.** -/
theorem moves_reconnectReset (hstay : ¬ T.leaving c)
    (hnd : (m.ctx.msgsIn.inflight.map (·.addr)).Nodup) :
    Moves T (w.put c m) (w.put c (reconnectReset m)) := by
  let m₁ : Machine := { m with ctx := reconnectResetOutgoing m.db.config m.ctx }
  have hin : m₁.ctx.msgsIn = m.ctx.msgsIn :=
    (resetQueuedLoop_spec m.db.config .mdOut _ _).2 .mdIn (by decide)
  have hstart : Moves T (w.put c m₁) (w.put c (m₁.onMsgs .mdIn (·.restart))) :=
    @moves_regroup T w c .mdIn m₁ m₁.ctx.msgsIn.restart (List.Perm.refl _)
  have hloop := moves_resetInflightIn (w := w) hstay m₁.ctx.msgsIn.inflight
    (m₁.onMsgs .mdIn (·.restart)) (hin.symm ▸ hnd) fun a ha => List.mem_map.mpr ⟨a, ha, rfl⟩
  exact ((moves_resetOutgoing.trans hstart).trans hloop).trans
    (moves_resetQueued _ .mdIn m₁.ctx.msgsIn.queued)

end Reset

/-! ## Taking over -/

section TakeOver

variable {T : Terms} {w : World} {c found : CtxId} {ctx foundCtx : Context}

theorem moves_putField {m : Machine} {ctx' : Context} (h : FieldsOnly T c m.ctx ctx') :
    Moves T (w.put c m) (w.put c ⟨m.db, ctx'⟩) := by
  have hmove := Move.field (put_get (w := w) (c := c) m) h
  rw [put_put] at hmove
  exact .single hmove

theorem moves_handOverSession (hw : Wf T.conn w.b) (hfound : w.b.contexts.get found = some foundCtx)
    (hget : w.b.contexts.get c = some ctx) (hne : found ≠ c) (hconn : T.conn c) (hbare : ctx.Bare)
    (hstay : ¬ T.leaving c)
    (hleave : ctx.cleanStart = false ∧ foundCtx.sessionExpiryInterval > 0 → T.leaving found) :
    Moves T w (w.at (handOverSession found c w.b)) := by
  unfold handOverSession
  rw [hfound, hget]
  simp only
  split
  · rename_i hhands
    unfold handOver
    rw [if_pos hhands]
    have hsubs : ∀ (w' : World) (subs : SubWorld), Moves T w w' →
        Moves T w (w'.at { w'.b with subs }) := fun w' subs h => h.tail (.aside (aside_subs _ _))
    split
    · have htake := Move.takeOver hne hfound hget hbare hconn (hleave hhands)
      have hnd : (foundCtx.msgsIn.inflight.map (·.addr)).Nodup := by
        have h := (hw.sound hfound .mdIn).nodup
        rw [Context.msgs, MsgData.all, List.append_assoc, List.map_append] at h
        exact (List.nodup_append.mp h).1
      have hreset := moves_reconnectReset (T := T) (c := c)
        (w := w.put found ⟨w.b.db, { foundCtx with msgsIn := .empty 0, msgsOut := .empty 0 }⟩)
        (m := ⟨w.b.db, { ctx with msgsIn := foundCtx.msgsIn.takeOver ctx.msgsIn
                                  msgsOut := foundCtx.msgsOut.takeOver ctx.msgsOut }⟩) hstay hnd
      exact hsubs _ _ ((Relation.ReflTransGen.head htake hreset).trans
        (moves_putField (fieldsOnly_lastMid foundCtx.lastMid)))
    · have hsame : Moves T w (w.put found ⟨w.b.db, foundCtx⟩) := .single (.field hfound (.refl T _ _))
      have hget' : (w.put found ⟨w.b.db, foundCtx⟩).b.contexts.get c = some ctx :=
        (Heap.get_set_ne _ _ hne.symm).trans hget
      exact hsubs _ _ (hsame.tail (.field hget' (fieldsOnly_lastMid foundCtx.lastMid)))
  · exact .refl

/-- What is done to an old connection before it is closed. -/
abbrev duplicated (ctx : Context) : Context :=
  { ctx.willClear with cleanStart := true, sessionExpiryInterval := 0 }.setState .duplicate

theorem willClear_will (ctx : Context) : ctx.willClear.will = none := by
  unfold Context.willClear
  split
  · rfl
  · rename_i h
    exact Option.not_isSome_iff_eq_none.mp h

theorem setState_will (state : ClientState) (ctx : Context) : (ctx.setState state).will = ctx.will := by
  unfold Context.setState
  split <;> rfl

theorem fieldsOnly_duplicated : FieldsOnly T c ctx (duplicated ctx) := by
  let ended : Context := { ctx.willClear with cleanStart := true, sessionExpiryInterval := 0 }
  have hended : FieldsOnly T c ctx.willClear ended :=
    fieldsOnly_same rfl rfl rfl rfl rfl (.inl rfl) rfl rfl rfl rfl rfl fun _ _ _ => rfl
  have hset : FieldsOnly T c ended (duplicated ctx) := fieldsOnly_setState (by decide)
  exact (fieldsOnly_willClear.trans hended).trans hset

/-- The old connection is off the lists, and closed without a will. -/
theorem moves_replaced (w : World) (found : CtxId) : Moves T w (w.at (contextDisconnect T.env found
    ((willDelayRemove found (sessionExpiryRemove found w.b)).modifyClient found duplicated))) := by
  have hlists : Moves T w (w.at (willDelayRemove found (sessionExpiryRemove found w.b))) :=
    moves_aside (.same rfl rfl rfl rfl rfl)
  have hset := hlists.trans (moves_fields (w := w.at _) (c := found) (f := duplicated)
    fun _ => fieldsOnly_duplicated)
  refine hset.trans (moves_contextDisconnect_none (w := w.at _) fun ctx hget => ?_)
  have hget : ((willDelayRemove found (sessionExpiryRemove found w.b)).contexts.modify found
    duplicated).get found = some ctx := hget
  rw [Heap.get_modify, if_pos rfl, Option.map_eq_some_iff] at hget
  obtain ⟨ctx', -, rfl⟩ := hget
  exact (setState_will _ _).trans (willClear_will ctx')

theorem moves_takeOver (hw : Wf T.conn w.b) (hfresh : w.fresh = none)
    (hfound : w.b.contexts.get found = some foundCtx) (hget : w.b.contexts.get c = some ctx)
    (hne : found ≠ c) (hconn : T.conn c) (hbare : ctx.Bare)
    (hleave : ∀ d, T.leaving d ↔
      d = found ∧ ctx.cleanStart = false ∧ foundCtx.sessionExpiryInterval > 0) :
    Moves T w (w.at (takeOver T.env found c w.b)) := by
  have hstay : ¬ T.leaving c := fun h => hne ((hleave c).mp h).1.symm
  have hhand := moves_handOverSession hw hfound hget hne hconn hbare hstay
    fun h => (hleave found).mpr ⟨rfl, h⟩
  unfold takeOver
  rw [hfound, hget]
  simp only
  by_cases hhands : ctx.cleanStart = false ∧ foundCtx.sessionExpiryInterval > 0
  · -- the session goes on, so the will is not due
    have hdue : willDue foundCtx ctx = false := by
      obtain ⟨hclean, hinterval⟩ := hhands
      have hdurable := (hw.plain hfound).2
      unfold willDue
      rw [decide_eq_false_iff_not]
      rintro (⟨-, hz⟩ | ⟨hp, hc⟩ | hc)
      · exact hinterval.ne' hz
      · exact hinterval.ne' (hdurable hp hc)
      · exact absurd (hclean.symm.trans hc) Bool.false_ne_true
    rw [hhands.1, hdue, if_neg Bool.false_ne_true, if_neg Bool.false_ne_true]
    exact hhand.trans (moves_replaced (w.at _) found)
  · have hnone : ∀ d, ¬ T.leaving d := fun d h => hhands ((hleave d).mp h).2
    have hsubs : Moves T w (w.at (if ctx.cleanStart = true then
        { handOverSession found c w.b with
          subs := (handOverSession found c w.b).subs.edit found (subCleanSession found) }
        else handOverSession found c w.b)) := by
      split
      · exact hhand.trans (moves_aside (w := w.at _) (aside_subs _ _))
      · exact hhand
    generalize (if ctx.cleanStart = true then
        { handOverSession found c w.b with
          subs := (handOverSession found c w.b).subs.edit found (subCleanSession found) }
        else handOverSession found c w.b) = b at hsubs
    have hwill : Moves T w (w.at (if willDue foundCtx ctx = true then contextSendWill T.env found b
        else b)) := by
      split
      · exact hsubs.trans (moves_contextSendWill (w := w.at b) (wf_moves hw hsubs) hnone hfresh)
      · exact hsubs
    exact hwill.trans (moves_replaced (w.at _) found)

theorem takeOver_closed {env : Env} {b : State} (hfound : b.contexts.get found = some foundCtx)
    (hget : b.contexts.get c = some ctx) {d : Context}
    (hd : (takeOver env found c b).contexts.get found = some d) : d.sock = none := by
  have hclosed := Registry.closed_takeOver (parties_some hfound) (parties_some hget)
  rw [← @registry_takeOver env] at hclosed
  exact hclosed (party d) (parties_some hd)

end TakeOver

/-! ## Connecting -/

section Connect

variable {T : Terms} {w : World} {c : CtxId} {ctx : Context}

/-- The fields are set first, and then messages are sent. -/
theorem steps_connectDone {R : Rules} {env : Env} (hnet : R.net = env.net) (ht : R.touch .mdOut)
    (connectAck : UInt8) {m : Machine} (h : Ready R m) :
    ∃ ctx', FieldsOnly T c m.ctx ctx' ∧
      Steps R ⟨m.db, ctx'⟩ (connectDone env connectAck m).2 := by
  unfold connectDone
  rw [← hnet]
  simp only
  generalize decide (m.db.config.maxKeepalive ≠ 0 ∧
    (m.ctx.keepalive > m.db.config.maxKeepalive ∨ m.ctx.keepalive = 0)) = refused
  have hkept : ∀ keepalive : Nat, FieldsOnly T c m.ctx { m.ctx with keepalive } := fun _ =>
    fieldsOnly_same rfl rfl rfl rfl rfl (.inl rfl) rfl rfl rfl rfl rfl fun h => h
  have hm : ∃ ctx₁ : Context, FieldsOnly T c m.ctx ctx₁ ∧ ctx₁.msgsOut = m.ctx.msgsOut ∧
      (if refused = true then { m with ctx := { m.ctx with keepalive := m.db.config.maxKeepalive } }
        else m) = ⟨m.db, ctx₁⟩ := by
    split
    · exact ⟨{ m.ctx with keepalive := m.db.config.maxKeepalive }, hkept _, rfl, rfl⟩
    · exact ⟨m.ctx, .refl T c m.ctx, rfl, rfl⟩
  obtain ⟨ctx₁, hfields, hmsgs, hm⟩ := hm
  rw [hm]
  split
  · exact ⟨ctx₁, hfields, .single (.command _)⟩
  · have hactive : (ctx₁.setState .active).msgsOut = m.ctx.msgsOut := by
      unfold Context.setState
      split <;> exact hmsgs
    refine ⟨ctx₁.setState .active, hfields.trans (fieldsOnly_setState (by decide)), ?_⟩
    have hready : Ready R ⟨m.db, ctx₁.setState .active⟩ := by
      refine ⟨⟨?_, ?_⟩, fun hx => ?_⟩
      · show ((ctx₁.setState .active).msgsOut.all.map (·.addr)).Nodup
        rw [hactive]
        exact h.sound.nodup
      · show ∀ a ∈ (ctx₁.setState .active).msgsOut.all, _
        rw [hactive]
        exact h.sound.fresh
      · show ∀ a ∈ (ctx₁.setState .active).msgsOut.all, _
        rw [hactive]
        exact h.states hx
    have hsend : Steps R ⟨m.db, ctx₁.setState .active⟩ (sendCommand R.net (.connack connectAck 0)
        ⟨m.db, ctx₁.setState .active⟩).2 := .single (.command _)
    split
    · exact hsend
    · have hqueued := hsend.trans (steps_messageWriteQueuedOut ht _)
      split
      · exact hqueued
      · exact hqueued.trans (steps_messageWriteInflightOutAll ht (hready.steps hqueued))

theorem moves_connectDone (hw : Wf T.conn w.b) (hstay : ¬ T.leaving c) (connectAck : UInt8) :
    Moves T w (w.at (w.b.onClient c (connectDone T.env connectAck)).2) := by
  unfold State.onClient World.at
  split
  · exact .refl
  · rename_i ctx hget
    obtain ⟨ctx', hfields, hsteps⟩ := steps_connectDone (T := T) (c := c) (R := w.rules T false) rfl
      trivial connectAck (ready_of_wf hw hget false)
    exact moves_client hget hfields rfl (fun h => absurd h Bool.false_ne_true) hstay (fun _ h => h)
      hsteps

theorem moves_checkAcl : Moves T w (w.at (w.b.onClient c fun m => (Rc.success, connectionCheckAcl T.env
    { m with ctx := { m.ctx with isDropping := false } })).2) := by
  unfold State.onClient World.at
  split
  · exact .refl
  · rename_i ctx hget
    have hfield : FieldsOnly T c ctx { ctx with isDropping := false } :=
      fieldsOnly_same rfl rfl rfl rfl rfl (.inl rfl) rfl rfl rfl rfl rfl fun h => h
    exact .head (.field hget hfield) (moves_connectionCheckAcl T.env)

/-- The second part of a CONNECT: the client has the session. -/
theorem moves_entered (hw : Wf T.conn w.b) (hstay : ¬ T.leaving c) (id : Bytes) (maxQos : Qos)
    (connectAck : UInt8) :
    let b := (w.b.onClient c fun m => (Rc.success, connectionCheckAcl T.env
      { m with ctx := { m.ctx with isDropping := false } })).2
    let b := { b with contextsById := b.contextsById.set id c }
    let b := b.modifyClient c fun ctx => { ctx with maxQos }
    Moves T w (w.at (b.onClient c (connectDone T.env connectAck)).2) := by
  intro b b₁ b₂
  have hacl : Moves T w (w.at b) := moves_checkAcl
  have hid : Moves T w (w.at b₁) := hacl.tail (@Move.aside T (w.at b) b₁ (.same rfl rfl rfl rfl rfl))
  have hqos : Moves T w (w.at b₂) := hid.trans (moves_fields (w := w.at b₁) fun _ =>
    fieldsOnly_same rfl rfl rfl rfl rfl (.inl rfl) rfl rfl rfl rfl rfl fun h => h)
  exact hqos.trans (moves_connectDone (w := w.at b₂) (wf_moves hw hqos) hstay connectAck)

theorem moves_afterError (hw : Wf T.conn w.b) (hstay : ∀ c, ¬ T.leaving c) (hfresh : w.fresh = none)
    {r : Rc × State} (hr : Moves T w (w.at r.2)) : Moves T w (w.at (afterError T.env c r)) := by
  unfold afterError
  split
  · exact hr.trans (moves_contextDisconnect (w := w.at r.2) (wf_moves hw hr) hstay hfresh)
  · exact hr

theorem moves_handlePacket (hw : Wf T.conn w.b) (hstay : ∀ c, ¬ T.leaving c) (hfresh : w.fresh = none)
    {r : Rc × State} (hr : Moves T w (w.at r.2)) : Moves T w (w.at (handlePacket T.env c r)) := by
  have hsend : Moves T w (w.at (r.2.onClient c (sendDisconnect T.env r.1)).2) := by
    refine hr.trans (moves_onClient (w := w.at r.2) (hstay c) fun ctx hget => ?_)
    unfold sendDisconnect
    split
    · split
      · exact .single (.command _)
      · exact .refl
    · exact .refl
  exact moves_afterError hw hstay hfresh hsend

end Connect

/-! ## Events -/

def Event.connecting : Event → CtxId → Prop
  | .connect c _ _ => fun d => d = c
  | _ => fun _ => False

/-- What an event does. At the end of the first part of it the clients that have handed their
messages over are closed. -/
def Goes (env : Env) (slow conn : CtxId → Prop) (tidy : Prop) (w w' : World) : Prop :=
  ∃ leaving w₁, Moves ⟨env, slow, conn, leaving, tidy⟩ w w₁ ∧
    (∀ c, leaving c → ∀ ctx, w₁.b.contexts.get c = some ctx → ctx.sock = none) ∧
    Moves ⟨env, slow, conn, fun _ => False, tidy⟩ w₁ w'

section Goes

variable {env : Env} {slow conn : CtxId → Prop} {tidy : Prop} {w w' : World} {b : State} {c : CtxId}
  {e : Event}

theorem Goes.of_moves (h : Moves ⟨env, slow, conn, fun _ => False, tidy⟩ w w') :
    Goes env slow conn tidy w w' :=
  ⟨fun _ => False, w, .refl, fun _ hf => hf.elim, h⟩

theorem Goes.trans {w'' : World} (h : Goes env slow conn tidy w w')
    (h' : Moves ⟨env, slow, conn, fun _ => False, tidy⟩ w' w'') : Goes env slow conn tidy w w'' := by
  obtain ⟨leaving, w₁, hfirst, hclosed, hsecond⟩ := h
  exact ⟨leaving, w₁, hfirst, hclosed, hsecond.trans h'⟩

theorem Wf.weaken {conn' : CtxId → Prop} (h : Wf conn b) (hconn : ∀ c, conn c → conn' c) :
    Wf conn' b :=
  ⟨h.sound, fun hg hc => h.new hg (mt (hconn _) hc), h.allocated, h.unused, h.plain⟩

theorem wf_goes (hw : Wf conn w.b) (h : Goes env slow conn tidy w w') : Wf conn w'.b := by
  obtain ⟨leaving, w₁, hfirst, -, hsecond⟩ := h
  exact wf_moves (T := ⟨env, slow, conn, fun _ => False, tidy⟩)
    (wf_moves (T := ⟨env, slow, conn, leaving, tidy⟩) hw hfirst) hsecond

theorem connect_id (p : ConnectPacket) (ctx : Context) :
    (ctx.connect p).id = some p.clientId := rfl

theorem connect_state (p : ConnectPacket) (ctx : Context) : (ctx.connect p).state = ctx.state := by
  unfold Context.connect
  simp only
  split
  · exact Context.processConnect_field (·.state) (fun _ _ => rfl) (fun _ _ => rfl) (fun _ _ => rfl) _ _
  · rfl

/-- The old connection is dealt with, and then the client has the session. -/
theorem connectOnAuthorised_eq {ctx : Context} {id : Bytes} (hget : b.contexts.get c = some ctx)
    (hid : ctx.id = some id) (maxQos : Qos) : ∃ connectAck, connectOnAuthorised env c maxQos b =
      let b := (b.contextsById.get id).elim b (takeOver env · c b)
      let b := (b.onClient c fun m => (Rc.success, connectionCheckAcl env
        { m with ctx := { m.ctx with isDropping := false } })).2
      let b := { b with contextsById := b.contextsById.set id c }
      (b.modifyClient c fun ctx => { ctx with maxQos }).onClient c (connectDone env connectAck) := by
  unfold connectOnAuthorised
  rw [hget]
  simp only [hid, Option.getD_some]
  exact ⟨_, rfl⟩

theorem goes_connect {ctx : Context} (hw : Wf (fun _ => False) b) (hs : b.registry.Sound)
    (hget : b.contexts.get c = some ctx) (hnew : ctx.state = .new) (maxQos : Qos)
    (p : ConnectPacket) :
    Goes env slow (fun d => d = c) tidy b.still
      (b.still.at (connectOnAuthorised env c maxQos (b.modifyClient c (·.connect p))).2) := by
  let conn : CtxId → Prop := fun d => d = c
  let b₀ := b.modifyClient c (·.connect p)
  have hget₀ : b₀.contexts.get c = some (ctx.connect p) :=
    (Heap.get_modify ..).trans ((if_pos rfl).trans (congrArg (Option.map _) hget))
  have hw' : Wf conn b := hw.weaken fun _ h => h.elim
  have hread : ∀ leaving, Moves ⟨env, slow, conn, leaving, tidy⟩ b.still (b.still.at b₀) := by
    intro leaving
    refine moves_modify fun ctx' h => ?_
    cases hget.symm.trans h
    exact fieldsOnly_connect rfl hnew p
  have hw₀ : Wf conn b₀ := wf_moves (w := b.still) (T := ⟨env, slow, conn, fun _ => False, tidy⟩) hw'
    (hread _)
  have hbare : (ctx.connect p).Bare := by
    intro d
    rw [(fieldsOnly_connect (T := ⟨env, slow, conn, fun _ => False, tidy⟩) (c := c) rfl hnew p).all d]
    exact (hw.new hget (fun h => h) hnew).2 d
  obtain ⟨connectAck, heq⟩ := @connectOnAuthorised_eq env b₀ c _ _ hget₀ (connect_id p ctx) maxQos
  have hsecond := fun (w₁ : World) (h : Wf conn w₁.b) =>
    moves_entered (T := ⟨env, slow, conn, fun _ => False, tidy⟩) (c := c) h (fun h => h) p.clientId
      maxQos connectAck
  rw [heq]
  cases hfound : b₀.contextsById.get p.clientId with
  | none => exact ⟨fun _ => False, _, hread _, fun _ h => h.elim, hsecond (b.still.at b₀) hw₀⟩
  | some found =>
    -- the old connection is another client
    obtain ⟨-, q, hq, hqid⟩ := hs.named.of_mem (show b.registry.contextsById p.clientId = some found
      from hfound)
    obtain ⟨foundCtx, hold, rfl⟩ := Option.map_eq_some_iff.mp hq
    have hne : found ≠ c := by
      rintro rfl
      cases hget.symm.trans hold
      have hid := (hs.fresh hq hnew).1
      exact nomatch hid.symm.trans hqid
    have hold₀ : b₀.contexts.get found = some foundCtx := (Heap.get_modify_ne _ _ hne).trans hold
    let leaving : CtxId → Prop := fun d =>
      d = found ∧ (ctx.connect p).cleanStart = false ∧ foundCtx.sessionExpiryInterval > 0
    have htake := (hread leaving).trans (moves_takeOver (T := ⟨env, slow, conn, leaving, tidy⟩)
      (w := b.still.at b₀) hw₀ rfl hold₀ hget₀ hne rfl hbare fun _ => Iff.rfl)
    refine ⟨leaving, _, htake, ?_, hsecond _ (wf_moves (T := ⟨env, slow, conn, leaving, tidy⟩) hw'
      htake)⟩
    rintro d ⟨rfl, -⟩ ctx' hd
    exact takeOver_closed hold₀ hget₀ hd

/-- What an event may rely on: a client that a PUBACK may send to slow mode is `slow`, and
with `tidy` a client that is freed has nothing in storage. -/
structure Event.Lawful (slow : CtxId → Prop) (tidy : Prop) (b : State) (e : Event) : Prop where
  ready : e.ready b = true
  unhurried : ∀ c type p, e = .ack c type p →
    slow c ∨ ∀ ctx, b.contexts.get c = some ctx → Unhurried type p ⟨b.db, ctx⟩
  emptied : tidy → e = .freeDisused → ∀ c ∈ b.llForFree, ∀ ctx, b.contexts.get c = some ctx →
    ∀ d, (ctx.msgs d).storage = []

/-- **Every event is a sequence of moves.** -/
theorem goes_exec (hw : Wf (fun _ => False) b) (hs : b.registry.Sound)
    (he : e.Lawful slow tidy b) : Goes env slow e.connecting tidy b.still (b.exec env e).still := by
  let T : Terms := ⟨env, slow, fun _ => False, fun _ => False, tidy⟩
  have hstay : ∀ c, ¬ T.leaving c := fun _ h => h
  have hpacket : ∀ (c : CtxId) {r : Rc × State}, Moves T b.still (b.still.at r.2) →
      Goes env slow (fun _ => False) tidy b.still (handlePacket env c r).still := fun c r hr =>
    .of_moves (moves_handlePacket (T := T) (w := b.still) (c := c) hw hstay rfl hr)
  cases e with
  | accept sock mountPoint =>
    exact .of_moves (.single (.accept ⟨rfl, rfl, fun d => by cases d <;> rfl⟩ ⟨rfl, rfl⟩ ⟨rfl, rfl⟩
      ⟨rfl, fun _ _ => rfl⟩))
  | connect c maxQos p =>
    let T' : Terms := ⟨env, slow, fun d => d = c, fun _ => False, tidy⟩
    have hw' : Wf T'.conn b := hw.weaken fun _ h => h.elim
    have hgo : Goes env slow (fun d => d = c) tidy b.still
        (b.still.at (handleConnect env c maxQos p b).2) := by
      unfold handleConnect
      split
      · rename_i hnew
        obtain ⟨ctx, hget, hnew⟩ := (Option.any_eq_true _ _).mp hnew
        exact goes_connect hw hs hget (of_decide_eq_true hnew) maxQos p
      · exact .of_moves (moves_fields (T := T') (w := b.still) fun _ => fieldsOnly_refused)
    refine hgo.trans ?_
    have hw₁ : Wf T'.conn (handleConnect env c maxQos p b).2 := wf_goes hw' hgo
    exact moves_afterError (T := T') (c := c) (r := handleConnect env c maxQos p b)
      (w := b.still.at (handleConnect env c maxQos p b).2) hw₁ (fun _ h => h) rfl .refl
  | refuse c =>
    have hset := moves_fields (T := T) (w := b.still) (c := c) fun _ => fieldsOnly_refused
    exact .of_moves (hset.trans
      (moves_contextDisconnect (w := b.still.at _) (wf_moves hw hset) hstay rfl))
  | publish c p =>
    exact hpacket c (moves_handlePublish (w := b.still) hw hstay rfl he.ready p)
  | pubrel c p => exact hpacket c (moves_handlePubrel hw hstay p)
  | ack c type p => exact hpacket c (moves_handlePubackcomp hw hstay type p (he.unhurried c type p rfl))
  | pubrec c p => exact hpacket c (moves_handlePubrec hw hstay p)
  | subscribe c p => exact hpacket c (moves_handleSubscribe hw hstay p)
  | unsubscribe c p => exact hpacket c (moves_handleUnsubscribe hstay p)
  | disconnect c packet =>
    have hset := moves_fields (T := T) (w := b.still) (c := c) (f := (·.disconnecting packet))
      fun _ => fieldsOnly_disconnecting packet
    exact .of_moves (hset.trans
      (moves_contextDisconnect (w := b.still.at _) (wf_moves hw hset) hstay rfl))
  | write c =>
    have hwrite : Moves T b.still (b.still.at (b.onClient c (packetWrite env)).2) := by
      unfold State.onClient World.at
      split
      · exact .refl
      · rename_i ctx hget
        exact .single (.write hget)
    exact .of_moves (moves_afterError (T := T) (w := b.still) (c := c) hw hstay rfl hwrite)
  | tick nowS nowRealS =>
    exact .of_moves (moves_aside (w := b.still) ⟨rfl, rfl, fun _ => rfl, rfl, rfl, fun _ => rfl,
      fun _ => rfl, fun _ h => .inl h⟩)
  | expiryCheck => exact .of_moves (moves_sessionExpiryCheck (T := T) (w := b.still) hw hstay rfl)
  | delayCheck => exact .of_moves (moves_willDelayCheck (T := T) (w := b.still) hw hstay rfl)
  | freeDisused =>
    refine .of_moves (moves_contextFreeDisused (T := T) (w := b.still) fun c hc ctx hget => ?_)
    have hsuits := hs.tidy.suits (parties_some hget)
    obtain ⟨-, hinterval, hwill, hid⟩ := hsuits.disused (hsuits.doomed hc)
    exact ⟨hwill, hid, hinterval, fun ht => he.emptied ht rfl c hc ctx hget⟩
  | sysTree topic payload =>
    have htok : ∃ r, Topic.subTopicTokenise (ascii "$SYS/" ++ topic) = .ok r := by
      refine tokenises (List.append_ne_nil_of_left_ne_nil (by decide) _) fun h => ?_
      have htake := congrArg (·.take 2) h
      rw [List.take_take, List.take_append_of_le_length (by decide)] at htake
      exact absurd htake (by decide)
    exact .of_moves (moves_messagesEasyQueue (T := T) (w := b.still) hw hstay rfl none _ 60 htok)

theorem connect_aged {r : Registry} {o : Registry.Outcome} (ho : o.active = true ∨ o.fail = true)
    {p : ConnectPacket} {q : Party} (hq : ((r.connect o c p).afterError o.fail c).parties c = some q) :
    q.state ≠ .new := by
  have hset : ∀ {r : Registry} {state : ClientState}, state ≠ .new → ∀ {q},
      (r.modify c (·.setState state)).parties c = some q → q.state ≠ .new := by
    intro r state hne q hq
    rw [Registry.modify_self, Option.map_eq_some_iff] at hq
    obtain ⟨x, -, rfl⟩ := hq
    unfold Party.setState
    split
    · exact hne
    · rename_i hdis
      exact fun h => nomatch (not_not.mp hdis).symm.trans h
  unfold Registry.afterError at hq
  split at hq
  · rcases Registry.disconnect_state hq with h | h
    · exact fun hn => nomatch h.symm.trans hn
    · exact fun hn => nomatch h.symm.trans hn
  · rename_i hfail
    unfold Registry.connect at hq
    split at hq
    · simp only [ho.resolve_right hfail, if_true] at hq
      exact hset (by decide) hq
    · rename_i hold
      rw [Registry.modify_self, Option.map_eq_some_iff] at hq
      obtain ⟨x, hx, rfl⟩ := hq
      rw [hx, Option.any_some, decide_eq_true_eq] at hold
      exact hold

theorem wf_exec (hw : Wf (fun _ => False) b) (hs : b.registry.Sound)
    (he : e.Lawful slow tidy b) : Wf (fun _ => False) (b.exec env e) := by
  have hgoes : Goes env slow e.connecting tidy b.still (b.exec env e).still := goes_exec hw hs he
  have hgo := wf_goes (w := b.still) (hw.weaken fun _ h => h.elim) hgoes
  refine ⟨hgo.sound, fun {c ctx} hget _ hnew => ?_, hgo.allocated, hgo.unused, hgo.plain⟩
  refine hgo.new hget (fun hconn => ?_) hnew
  cases e with
  | connect d maxQos p =>
    cases (show c = d from hconn)
    obtain ⟨o, ho, -, hexec⟩ := @registry_exec env (.connect c maxQos p) b
    have hp := parties_some hget
    rw [hexec] at hp
    exact connect_aged ho hp hnew
  | _ => exact hconn

theorem wf_start (config : Config) (clock : Nat → Reading) :
    Wf (fun _ => False) (State.dbOpen config clock) :=
  ⟨nofun, nofun, nofun, nofun, nofun⟩

end Goes

/-! ## Runs -/

/-- The states of the broker between two events that may go on as `slow` and `tidy` say. -/
inductive Lawfully (env : Env) (config : Config) (clock : Nat → Reading)
    (slow : State → CtxId → Prop) (tidy : Prop) : State → Prop where
  | start : Lawfully env config clock slow tidy (State.dbOpen config clock)
  | next {b : State} (e : Event) (h : Lawfully env config clock slow tidy b)
    (he : e.Lawful (slow b) tidy b) : Lawfully env config clock slow tidy (b.exec env e)

section Lawfully

variable {env : Env} {config : Config} {clock : Nat → Reading} {slow : State → CtxId → Prop}
  {tidy : Prop} {b : State}

theorem Lawfully.reaches (h : Lawfully env config clock slow tidy b) :
    Reaches env config clock b := by
  induction h with
  | start => exact .start
  | next e _ he ih => exact .next e ih he.ready

theorem Lawfully.wf (h : Lawfully env config clock slow tidy b) : Wf (fun _ => False) b := by
  induction h with
  | start => exact wf_start config clock
  | next e h he ih => exact wf_exec ih (sound_reaches h.reaches).1 he

/-- **What moves keep, runs keep.** -/
theorem Lawfully.keep {I : State → Prop} (h : Lawfully env config clock slow tidy b)
    (hstart : I (State.dbOpen config clock))
    (hgoes : ∀ {b : State} {e : Event}, Wf (fun _ => False) b → I b →
      Goes env (slow b) e.connecting tidy b.still (b.exec env e).still → I (b.exec env e)) : I b := by
  induction h with
  | start => exact hstart
  | next e h he ih => exact hgoes h.wf ih (goes_exec h.wf (sound_reaches h.reaches).1 he)

end Lawfully

end AdaptiveMqtt.Broker
