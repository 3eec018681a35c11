import AdaptiveMqtt.Broker.Incoming
import AdaptiveMqtt.Broker.Traits

/-!
# Clients that leave

The functions that end a connection or a session as moves: the will, the lists of sessions
that expire and of wills that are delayed, disconnecting, dropping messages and freeing a
client.
-/

namespace AdaptiveMqtt.Broker

open Lib AdaptiveMqtt.Sub Db

/-! ## Fields -/

section Fields

variable {T : Terms} {c : CtxId} {ctx ctx' ctx'' : Context}

theorem FieldsOnly.trans (h : FieldsOnly T c ctx ctx') (h' : FieldsOnly T c ctx' ctx'') :
    FieldsOnly T c ctx ctx'' := by
  refine ⟨fun d => ?_, h'.journal.trans h.journal, h'.out.trans h.out, h'.early.trans h.early,
    ?_, ?_, ?_, fun hn => h.new (h'.new hn), fun hd => h'.disused (h.disused hd),
    fun ho => h'.optIn (h.optIn ho), h'.bridge.trans h.bridge, fun hd => h'.durable (h.durable hd)⟩
  · obtain ⟨hi, hq, hs⟩ := h.lists d
    obtain ⟨hi', hq', hs'⟩ := h'.lists d
    exact ⟨hi'.trans hi, hq'.trans hq, hs'.trans hs⟩
  · rcases h'.sock with hs | hs
    · rw [hs]
      exact h.sock
    · exact .inr hs
  · rcases h'.mode with hm | hm
    · rw [hm]
      exact h.mode
    · exact .inr hm
  · rcases h'.id with hi | hi | ⟨hconn, hn⟩
    · rw [hi]
      exact h.id
    · exact .inr (.inl hi)
    · exact .inr (.inr ⟨hconn, h.new hn⟩)

theorem fieldsOnly_same (hin : ctx'.msgsIn = ctx.msgsIn) (hout : ctx'.msgsOut = ctx.msgsOut)
    (hjournal : ctx'.journal = ctx.journal) (hpackets : ctx'.out = ctx.out)
    (hearly : ctx'.early = ctx.early) (hsock : ctx'.sock = ctx.sock ∨ ctx'.sock = none)
    (hmode : ctx'.mode = ctx.mode) (hid : ctx'.id = ctx.id) (hstate : ctx'.state = ctx.state)
    (hopt : ctx'.optIn = ctx.optIn) (hbridge : ctx'.bridge = ctx.bridge)
    (hdurable : ctx.Durable → ctx'.Durable) : FieldsOnly T c ctx ctx' := by
  refine ⟨fun d => ?_, hjournal, hpackets, hearly, hsock, .inl hmode, .inl hid,
    fun h => hstate ▸ h, fun h => hstate ▸ h, fun h => hopt ▸ h, hbridge, hdurable⟩
  cases d with
  | mdIn => exact ⟨congrArg _ hin, congrArg _ hin, congrArg _ hin⟩
  | mdOut => exact ⟨congrArg _ hout, congrArg _ hout, congrArg _ hout⟩

theorem fieldsOnly_setState {state : ClientState} (hstate : state ≠ .new) :
    FieldsOnly T c ctx (ctx.setState state) := by
  unfold Context.setState
  split
  · rename_i hdis
    exact ⟨fun d => by cases d <;> exact ⟨rfl, rfl, rfl⟩, rfl, rfl, rfl, .inl rfl, .inl rfl,
      .inl rfl, fun h => absurd h hstate, fun h => absurd h hdis, fun h => h, rfl, fun h => h⟩
  · exact .refl T c ctx

theorem fieldsOnly_willClear : FieldsOnly T c ctx ctx.willClear := by
  unfold Context.willClear
  split
  · exact fieldsOnly_same rfl rfl rfl rfl rfl (.inl rfl) rfl rfl rfl rfl rfl fun h => h
  · exact .refl T c ctx

theorem fieldsOnly_socketClose : FieldsOnly T c ctx ctx.socketClose :=
  fieldsOnly_same rfl rfl rfl rfl rfl (.inr rfl) rfl rfl rfl rfl rfl fun h => h

theorem fieldsOnly_refused : FieldsOnly T c ctx ctx.refused := by
  unfold Context.refused
  refine ⟨fun d => by cases d <;> exact ⟨rfl, rfl, rfl⟩, rfl, rfl, rfl, .inl rfl, .inl rfl, ?_,
    fun h => h, fun h => h, fun h => h, rfl, fun _ _ _ => rfl⟩
  show (if ctx.state = .new then none else ctx.id) = _ ∨
    (if ctx.state = .new then none else ctx.id) = none ∨ _
  split
  · exact .inr (.inl rfl)
  · exact .inl rfl

theorem fieldsOnly_disconnecting (packet : Option (Bool × Option Nat)) :
    FieldsOnly T c ctx (ctx.disconnecting packet) := by
  cases packet with
  | none => exact .refl T c ctx
  | some packet =>
    obtain ⟨withWill, expiry⟩ := packet
    by_cases h : ctx.sessionExpiryInterval = 0 ∧
        (if ctx.protocol = .mqtt5 then expiry else none).any (· ≠ 0) = true
    · rw [show ctx.disconnecting (some (withWill, expiry)) = ctx from if_pos h]
      exact .refl T c ctx
    · have hinterval : FieldsOnly T c ctx { ctx with sessionExpiryInterval :=
          (if ctx.protocol = .mqtt5 then expiry else none).getD ctx.sessionExpiryInterval } := by
        refine fieldsOnly_same rfl rfl rfl rfl rfl (.inl rfl) rfl rfl rfl rfl rfl
          fun hdurable hprotocol hclean => ?_
        show (if ctx.protocol = .mqtt5 then expiry else none).getD ctx.sessionExpiryInterval = 0
        rw [if_neg hprotocol]
        exact hdurable hprotocol hclean
      rw [Context.disconnecting]
      simp only [if_neg h]
      split
      · exact hinterval.trans (fieldsOnly_setState (by decide))
      · exact hinterval.trans (fieldsOnly_willClear.trans (fieldsOnly_setState (by decide)))

/-- The fields the properties of a CONNECT write. -/
theorem processConnect_eq (ps : List Property) (ctx : Context) :
    ∃ interval maximum quota size, ctx.processConnect ps = { ctx with
      sessionExpiryInterval := interval
      msgsOut := { ctx.msgsOut with inflightMaximum := maximum, inflightQuota := quota }
      maximumPacketSize := size } := by
  fun_induction Context.processConnect ps ctx with
  | case1 ctx => exact ⟨_, _, _, _, rfl⟩
  | case2 p ps ctx value hid hvalue ih =>
    obtain ⟨interval, maximum, quota, size, h⟩ := ih
    exact ⟨interval, maximum, quota, size, h⟩
  | case3 => exact ⟨_, _, _, _, rfl⟩
  | case4 p ps ctx value hid hvalue hne ih =>
    obtain ⟨interval, maximum, quota, size, h⟩ := ih
    exact ⟨interval, maximum, quota, size, h⟩
  | case5 => exact ⟨_, _, _, _, rfl⟩
  | case6 p ps ctx value hid hvalue hne ih =>
    obtain ⟨interval, maximum, quota, size, h⟩ := ih
    exact ⟨interval, maximum, quota, size, h⟩
  | case7 p ps ctx _ _ _ ih => exact ih

/-- CONNECT gives a new client its id. -/
theorem fieldsOnly_connect (hconn : T.conn c) (hnew : ctx.state = .new) (p : ConnectPacket) :
    FieldsOnly T c ctx (ctx.connect p) := by
  unfold Context.connect
  by_cases hmqtt : p.protocol = .mqtt5
  · simp only [if_pos hmqtt]
    obtain ⟨interval, maximum, quota, size, h⟩ := processConnect_eq p.properties { ctx with
      protocol := p.protocol, isBridge := p.isBridge, keepalive := p.keepalive
      sessionExpiryInterval :=
        if p.cleanStart = false ∧ p.protocol ≠ .mqtt5 then 0xFFFFFFFF else 0 }
    rw [h]
    refine ⟨fun d => by cases d <;> exact ⟨rfl, rfl, rfl⟩, rfl, rfl, rfl, .inl rfl, .inl rfl,
      .inr (.inr ⟨hconn, hnew⟩), fun h => h, fun h => h, fun ho => ?_, rfl,
      fun _ hprotocol => absurd hmqtt hprotocol⟩
    show (ctx.optIn || p.thresholdL.isSome) = true
    rw [ho, Bool.true_or]
  · simp only [if_neg hmqtt]
    refine ⟨fun d => by cases d <;> exact ⟨rfl, rfl, rfl⟩, rfl, rfl, rfl, .inl rfl, .inl rfl,
      .inr (.inr ⟨hconn, hnew⟩), fun h => h, fun h => h, fun ho => ?_, rfl, fun _ _ hclean => ?_⟩
    · show (ctx.optIn || p.thresholdL.isSome) = true
      rw [ho, Bool.true_or]
    · have hclean : p.cleanStart = true := hclean
      show (if p.cleanStart = false ∧ p.protocol ≠ .mqtt5 then 0xFFFFFFFF else 0) = 0
      rw [if_neg fun h => absurd (h.1.symm.trans hclean) Bool.false_ne_true]

end Fields

/-! ## The will and the lists -/

/-- Only the registry changes. -/
theorem Aside.same {b b' : State} (hcontexts : b'.contexts = b.contexts)
    (hnext : b'.nextContext = b.nextContext) (hdb : b'.db = b.db) (hretains : b'.retains = b.retains)
    (hfree : b'.llForFree = b.llForFree) : Aside b b' :=
  ⟨hcontexts, hnext, fun s => by rw [hdb], by rw [hdb], by rw [hdb],
    fun p => by rw [State.retainedAt, hretains]; rfl, fun s => by rw [State.retaining, hretains]; rfl,
    fun c hc => .inl (hfree ▸ hc)⟩

section Leaving

variable {T : Terms} {w : World} {c : CtxId}

theorem moves_fields {f : Context → Context} (hf : ∀ ctx, FieldsOnly T c ctx (f ctx)) :
    Moves T w (w.at (w.b.modifyClient c f)) := moves_modify fun ctx _ => hf ctx

theorem moves_willDelayAdd : Moves T w (w.at (willDelayAdd c w.b)) := by
  unfold willDelayAdd
  split
  · exact .refl
  · rename_i ctx _
    split
    · exact .refl
    · have htime := @moves_fields T w c
        (fun d => { d with willDelayTime := w.b.db.nowRealS + ctx.willDelayInterval }) fun d =>
          fieldsOnly_same rfl rfl rfl rfl rfl (.inl rfl) rfl rfl rfl rfl rfl fun h => h
      exact htime.tail (.aside (.same rfl rfl rfl rfl rfl))

theorem moves_sessionExpiryAdd : Moves T w (w.at (sessionExpiryAdd c w.b)) := by
  unfold sessionExpiryAdd
  split
  · exact .refl
  · simp only
    split
    · exact .refl
    · refine (@moves_fields T w c _ fun d => ?_).tail (.aside (.same rfl rfl rfl rfl rfl))
      exact fieldsOnly_same rfl rfl rfl rfl rfl (.inl rfl) rfl rfl rfl rfl rfl fun h => h

/-- A will has a topic that is not shared, if the client may publish it. -/
theorem moves_contextSendWill (hw : Wf T.conn w.b) (hstay : ∀ c, ¬ T.leaving c)
    (hfresh : w.fresh = none) : Moves T w (w.at (contextSendWill T.env c w.b)) := by
  unfold contextSendWill
  split
  · exact .refl
  · rename_i ctx hget
    simp only
    split
    · exact moves_fields fun _ => fieldsOnly_willClear
    · rename_i will hwill
      split
      · exact moves_fields fun _ => fieldsOnly_willClear
      · split
        · exact moves_willDelayAdd
        · split
          · rename_i hacl
            obtain ⟨-, htok⟩ := of_aclCheck (hw.plain hget).1 will.topic_ne_nil hacl
            exact (moves_messagesEasyQueue hw hstay hfresh _ _ _ htok).trans
              (moves_fields (w := w.at _) fun _ => fieldsOnly_willClear)
          · exact moves_fields fun _ => fieldsOnly_willClear

theorem moves_contextSendWill_none
    (hwill : ∀ ctx, w.b.contexts.get c = some ctx → ctx.will = none) :
    Moves T w (w.at (contextSendWill T.env c w.b)) := by
  unfold contextSendWill
  split
  · exact .refl
  · rename_i ctx hget
    simp only [hwill ctx hget]
    exact moves_fields fun _ => fieldsOnly_willClear

/-! ## Disconnecting and freeing -/

theorem moves_contextRemoveFromById : Moves T w (w.at (contextRemoveFromById c w.b)) := by
  unfold contextRemoveFromById
  split
  · exact .refl
  · split
    · exact .refl
    · split
      · exact .refl
      · refine (@moves_fields T w c _ fun d => ?_).tail (.aside (.same rfl rfl rfl rfl rfl))
        exact fieldsOnly_same rfl rfl rfl rfl rfl (.inl rfl) rfl rfl rfl rfl rfl fun h => h

theorem contextRemoveFromById_state (b : State) :
    ((contextRemoveFromById c b).contexts.get c).map (·.state) =
      (b.contexts.get c).map (·.state) := by
  unfold contextRemoveFromById
  split
  · rfl
  · split
    · rfl
    · split
      · rfl
      · show ((b.contexts.modify c _).get c).map _ = _
        rw [Heap.get_modify, if_pos rfl, Option.map_map]
        rfl

/-- A client that is to be freed loses its id first. -/
theorem moves_contextAddToDisused : Moves T w (w.at (contextAddToDisused c w.b)) := by
  unfold contextAddToDisused
  split
  · exact .refl
  · rename_i ctx hget
    split
    · exact .refl
    · rename_i hstate
      simp only
      have hdis := @moves_fields T w c (·.setState .disused) fun _ => fieldsOnly_setState (by decide)
      have hgone := hdis.trans (moves_contextRemoveFromById (c := c))
      have hid := hgone.trans (@moves_fields T _ c (fun d => { d with id := none }) fun d =>
        ⟨fun dir => by cases dir <;> exact ⟨rfl, rfl, rfl⟩, rfl, rfl, rfl, .inl rfl, .inl rfl,
          .inr (.inl rfl), fun h => h, fun h => h, fun h => h, rfl, fun h => h⟩)
      refine hid.tail (.aside ⟨rfl, rfl, fun _ => rfl, rfl, rfl, fun _ => rfl, fun _ => rfl,
        fun d hd => ?_⟩)
      rcases List.mem_cons.mp hd with rfl | hd
      · -- the state was set before the id went
        have hset := @contextRemoveFromById_state d (w.b.modifyClient d (·.setState .disused))
        have hmod : ((w.b.modifyClient d (·.setState .disused)).contexts.get d) =
            some (ctx.setState .disused) := by
          rw [State.modifyClient, Heap.get_modify, if_pos rfl, hget]
          rfl
        rw [hmod, Option.map_some, Option.map_eq_some_iff] at hset
        obtain ⟨ctx', hget', hstate'⟩ := hset
        have hdisused : (ctx.setState .disused).state = .disused := by
          rw [Context.setState, if_pos hstate]
        refine .inr ⟨{ ctx' with id := none }, ?_, hstate'.trans hdisused, rfl⟩
        exact (Heap.get_modify ..).trans ((if_pos rfl).trans (congrArg (Option.map _) hget'))
      · exact .inl hd

/-- The socket is closed, the will is sent or waits, and the session ends or will expire. -/
theorem moves_departed
    (hwill : Moves T w (w.at (contextSendWill T.env c (w.b.modifyClient c (·.socketClose))))) :
    Moves T w (w.at (contextDisconnect T.env c w.b)) := by
  unfold contextDisconnect
  split
  · exact .refl
  · split
    · exact .refl
    · simp only
      generalize contextSendWill T.env c (w.b.modifyClient c (·.socketClose)) = b at hwill ⊢
      refine Relation.ReflTransGen.trans ?_
        (moves_fields (w := w.at _) fun _ => fieldsOnly_setState (by decide))
      cases hget : b.contexts.get c with
      | none => exact hwill
      | some ctx =>
        simp only
        split
        · split
          · exact hwill.trans (moves_contextAddToDisused (w := w.at b))
          · exact hwill
        · exact hwill.trans (moves_sessionExpiryAdd (w := w.at b))

theorem moves_contextDisconnect (hw : Wf T.conn w.b) (hstay : ∀ c, ¬ T.leaving c)
    (hfresh : w.fresh = none) : Moves T w (w.at (contextDisconnect T.env c w.b)) := by
  have hclose := @moves_fields T w c (·.socketClose) fun _ => fieldsOnly_socketClose
  exact moves_departed (hclose.trans
    (moves_contextSendWill (w := w.at _) (wf_moves hw hclose) hstay hfresh))

/-- A client without a will is disconnected. -/
theorem moves_contextDisconnect_none
    (hwill : ∀ ctx, w.b.contexts.get c = some ctx → ctx.will = none) :
    Moves T w (w.at (contextDisconnect T.env c w.b)) := by
  have hclose := @moves_fields T w c (·.socketClose) fun _ => fieldsOnly_socketClose
  refine moves_departed (hclose.trans (moves_contextSendWill_none (w := w.at _) fun ctx hget => ?_))
  have hget : (w.b.contexts.modify c (·.socketClose)).get c = some ctx := hget
  rw [Heap.get_modify, if_pos rfl, Option.map_eq_some_iff] at hget
  obtain ⟨ctx', hget', rfl⟩ := hget
  exact hwill ctx' hget'

/-! ## Dropping messages -/

section Drop

variable {dir : Direction} {ctx : Context} {m : Machine}

/-- Dropping a reference does not look at the lists. -/
theorem dropRef_onMsgs (dir : Direction) (msg : ClientMsg) (m : Machine) (md md' : MsgData) :
    (dropRef dir msg (m.onMsgs dir fun _ => md)).onMsgs dir (fun _ => md') =
      (dropRef dir msg m).onMsgs dir fun _ => md' := by
  cases dir <;> rfl

theorem onMsgs_onMsgs (dir : Direction) (m : Machine) (md md' : MsgData) :
    (m.onMsgs dir fun _ => md).onMsgs dir (fun _ => md') = m.onMsgs dir fun _ => md' := by
  cases dir <;> rfl

theorem onMsgs_msgs (dir : Direction) (m : Machine) (md : MsgData) :
    (m.onMsgs dir fun _ => md).ctx.msgs dir = md := Context.msgs_setMsgs_self _ _ _

theorem moves_regroup {md : MsgData}
    (hperm : (md.all.map ClientMsg.key).Perm ((m.ctx.msgs dir).all.map ClientMsg.key)) :
    Moves T (w.put c m) (w.put c (m.onMsgs dir fun _ => md)) := by
  have hmove := Move.regroup (T := T) dir (put_get (w := w) (c := c) m) hperm
  rw [put_put] at hmove
  exact .single hmove

theorem moves_drop {msg : ClientMsg} {md : MsgData}
    (hperm : ((m.ctx.msgs dir).all.map ClientMsg.key).Perm
      (msg.key :: md.all.map ClientMsg.key)) :
    Moves T (w.put c m) (w.put c ((dropRef dir msg m).onMsgs dir fun _ => md)) := by
  have hmove := Move.drop (T := T) (put_get (w := w) (c := c) m) hperm
  rw [put_put] at hmove
  exact .single hmove

/-- Messages of one direction are dropped, and the others regrouped. -/
theorem moves_dropAll (l : List ClientMsg) : ∀ {m : Machine} {md md' : MsgData},
    (md.all.map ClientMsg.key).Perm (l.map ClientMsg.key ++ md'.all.map ClientMsg.key) →
    Moves T (w.put c (m.onMsgs dir fun _ => md))
      (w.put c ((messagesDeleteList dir l m).onMsgs dir fun _ => md')) := by
  induction l with
  | nil =>
    intro m md md' hperm
    have hmove := @moves_regroup T w c dir (m.onMsgs dir fun _ => md) md' (by
      rw [onMsgs_msgs]
      exact hperm.symm)
    rw [onMsgs_onMsgs] at hmove
    exact hmove
  | cons msg l ih =>
    intro m md md' hperm
    let md₁ : MsgData := { md' with inflight := l ++ md'.inflight }
    have hall : md₁.all = l ++ md'.all := by simp only [MsgData.all, md₁, List.append_assoc]
    have hone := @moves_drop T w c dir (m.onMsgs dir fun _ => md) msg md₁ (by
      rw [onMsgs_msgs, hall, List.map_append]
      exact hperm)
    rw [dropRef_onMsgs] at hone
    refine hone.trans (ih ?_)
    rw [hall, List.map_append]

/-- The lists of a direction as they are. -/
theorem onMsgs_self (dir : Direction) (m : Machine) : (m.onMsgs dir fun _ => m.ctx.msgs dir) = m := by
  cases dir <;> rfl

/-- A function that drops messages of one direction. -/
theorem moves_dropped {l : List ClientMsg} {md : MsgData}
    (hperm : ((m.ctx.msgs dir).all.map ClientMsg.key).Perm
      (l.map ClientMsg.key ++ md.all.map ClientMsg.key)) :
    Moves T (w.put c m) (w.put c ((messagesDeleteList dir l m).onMsgs dir fun _ => md)) := by
  have hmoves := @moves_dropAll T w c dir l m (m.ctx.msgs dir) md hperm
  rw [onMsgs_self] at hmoves
  exact hmoves

theorem messagesDeleteList_msgs (dir : Direction) (l : List ClientMsg) (m : Machine)
    (d : Direction) : (messagesDeleteList dir l m).ctx.msgs d = m.ctx.msgs d := by
  induction l generalizing m with
  | nil => rfl
  | cons msg l ih => exact (ih _).trans (dropRef_msgs dir d msg m)

theorem messagesDeleteList_append (dir : Direction) (l l' : List ClientMsg) (m : Machine) :
    messagesDeleteList dir l' (messagesDeleteList dir l m) = messagesDeleteList dir (l ++ l') m :=
  (List.foldl_append ..).symm

theorem moves_dropList {l : List ClientMsg} {f : MsgData → MsgData}
    (hperm : ((m.ctx.msgs dir).all.map ClientMsg.key).Perm
      (l.map ClientMsg.key ++ (f (m.ctx.msgs dir)).all.map ClientMsg.key)) :
    Moves T (w.put c m) (w.put c ((messagesDeleteList dir l m).onMsgs dir f)) := by
  have hmoves := @moves_dropped T w c dir m l (f (m.ctx.msgs dir)) hperm
  have hmsgs := messagesDeleteList_msgs dir l m dir
  unfold Machine.onMsgs at hmoves ⊢
  rw [hmsgs]
  exact hmoves

/-- What `db__messages_delete` does in one direction. -/
theorem moves_deleted : Moves T (w.put c m) (w.put c ((messagesDeleteList dir
    (m.ctx.msgs dir).queued (messagesDeleteList dir (m.ctx.msgs dir).inflight m)).onMsgs dir
      (·.deleted))) := by
  rw [messagesDeleteList_append]
  refine moves_dropList ?_
  rw [← List.map_append]
  exact List.Perm.refl _

theorem checkAclLoop_eq (env : Env) (dir : Direction) (ctx : Context) (l : List ClientMsg)
    (m : Machine) : ∃ dropped, (checkAclLoop env dir ctx l m).2 = messagesDeleteList dir dropped m ∧
      (dropped ++ (checkAclLoop env dir ctx l m).1).Perm l := by
  induction l generalizing m with
  | nil => exact ⟨[], rfl, List.Perm.refl _⟩
  | cons msg l ih =>
    unfold checkAclLoop
    simp only
    generalize (if msg.direction = .mdOut then Access.read else .write) = access
    split
    · obtain ⟨dropped, hrun, hperm⟩ := ih (dropRef dir msg m)
      exact ⟨msg :: dropped, hrun, hperm.cons msg⟩
    · obtain ⟨dropped, hrun, hperm⟩ := ih m
      exact ⟨dropped, hrun, List.perm_middle.trans (hperm.cons msg)⟩

theorem moves_checkAclLoop (env : Env) (ctx : Context) {l rest : List ClientMsg}
    (put : List ClientMsg → MsgData → MsgData)
    (hput : ∀ l, (put l (m.ctx.msgs dir)).all.Perm (l ++ rest))
    (hl : (m.ctx.msgs dir).all.Perm (l ++ rest)) :
    let r := checkAclLoop env dir ctx l m
    Moves T (w.put c m) (w.put c (r.2.onMsgs dir (put r.1))) := by
  obtain ⟨dropped, hrun, hperm⟩ := checkAclLoop_eq env dir ctx l m
  simp only
  rw [hrun]
  refine moves_dropList ?_
  rw [← List.map_append]
  refine List.Perm.map _ ?_
  calc (m.ctx.msgs dir).all.Perm (l ++ rest) := hl
    _ |>.Perm ((dropped ++ (checkAclLoop env dir ctx l m).1) ++ rest) := (hperm.append_right _).symm
    _ |>.Perm _ := by
      rw [List.append_assoc]
      exact (hput _).symm.append_left _

/-- **What `connection_check_acl` refuses is dropped.** -/
theorem moves_connectionCheckAcl (env : Env) :
    Moves T (w.put c m) (w.put c (connectionCheckAcl env m)) := by
  have hqueued : ∀ (l : List ClientMsg) (md : MsgData), MsgData.all { md with queued := l } |>.Perm
      (l ++ (md.inflight ++ md.storage)) := fun l md => by
    rw [MsgData.all, ← List.append_assoc]
    exact List.perm_append_comm.append_right _
  have hone : ∀ (dir : Direction) (m : Machine),
      let r := checkAclLoop env dir m.ctx (m.ctx.msgs dir).inflight m
      let m₁ := r.2.onMsgs dir fun md => { md with inflight := r.1 }
      let r₁ := checkAclLoop env dir m₁.ctx (m₁.ctx.msgs dir).queued m₁
      Moves T (w.put c m) (w.put c (r₁.2.onMsgs dir fun md => { md with queued := r₁.1 })) := by
    intro dir m r m₁ r₁
    have hin := @moves_checkAclLoop T w c dir m env m.ctx (m.ctx.msgs dir).inflight
      ((m.ctx.msgs dir).queued ++ (m.ctx.msgs dir).storage)
      (fun l md => { md with inflight := l })
      (fun l => by rw [MsgData.all, List.append_assoc]) (by rw [MsgData.all, List.append_assoc])
    refine hin.trans (@moves_checkAclLoop T w c dir m₁ env m₁.ctx (m₁.ctx.msgs dir).queued
      ((m₁.ctx.msgs dir).inflight ++ (m₁.ctx.msgs dir).storage)
      (fun l md => { md with queued := l }) (fun l => hqueued l _) (hqueued _ _))
  exact (hone .mdIn m).trans (hone .mdOut _)

end Drop

/-! ## Freeing -/

theorem moves_messagesDelete {m : Machine} :
    Moves T (w.put c m) (w.put c (messagesDelete true m)) := by
  unfold messagesDelete
  simp only [true_or, if_true]
  exact moves_deleted.trans moves_deleted

/-- Storage is left. -/
theorem messagesDelete_all (m : Machine) (d : Direction) :
    ((messagesDelete true m).ctx.msgs d).all = (m.ctx.msgs d).storage := by
  have hone : ∀ (dir : Direction) (m : Machine) (d : Direction),
      ((messagesDeleteList dir (m.ctx.msgs dir).queued (messagesDeleteList dir
        (m.ctx.msgs dir).inflight m)).onMsgs dir (·.deleted)).ctx.msgs d =
        if d = dir then (m.ctx.msgs d).deleted else m.ctx.msgs d := by
    intro dir m d
    have hmsgs := fun d => (messagesDeleteList_msgs dir (m.ctx.msgs dir).queued
      (messagesDeleteList dir (m.ctx.msgs dir).inflight m) d).trans
        (messagesDeleteList_msgs dir (m.ctx.msgs dir).inflight m d)
    split
    · rename_i hd
      subst hd
      exact (Context.msgs_setMsgs_self _ _ _).trans (congrArg MsgData.deleted (hmsgs d))
    · rename_i hd
      exact (Context.msgs_setMsgs_ne _ _ hd).trans (hmsgs d)
  unfold messagesDelete
  simp only [true_or, if_true]
  rw [hone, hone]
  cases d <;> rfl

theorem contextSendWill_none {env : Env} {b : State} {ctx : Context}
    (hget : b.contexts.get c = some ctx) (hwill : ctx.will = none) :
    contextSendWill env c b = b.modifyClient c (·.willClear) := by
  unfold contextSendWill
  rw [hget]
  simp only [hwill]

theorem contextRemoveFromById_none {b : State} {ctx : Context}
    (hget : b.contexts.get c = some ctx) (hid : ctx.id = none) : contextRemoveFromById c b = b := by
  unfold contextRemoveFromById
  rw [hget]
  simp only [hid]

/-- Put back what is there, in another place of the heap. -/
theorem moves_onPut {b : State} {ctx : Context} (hget : b.contexts.get c = some ctx) :
    Moves T (w.at b) ((w.at b).put c ⟨b.db, ctx⟩) :=
  .single (.field hget (.refl T c ctx))

/-- A client that is freed has no will, no id, and its session has ended. -/
structure Ending (T : Terms) (ctx : Context) : Prop where
  will : ctx.will = none
  id : ctx.id = none
  interval : ctx.sessionExpiryInterval = 0
  storage : T.tidy → ∀ d, (ctx.msgs d).storage = []

abbrev cleaned (ctx : Context) : Context := { ctx with cleanStart := true }.socketClose

/-- Without a will and an id, the messages go and then the client. -/
theorem contextCleanup_eq {env : Env} {b : State} {ctx : Context}
    (hget : b.contexts.get c = some ctx) (hwill : ctx.will = none) (hid : ctx.id = none) :
    let b' := { b.modifyClient c cleaned with subs := b.subs.edit c (subCleanSession c) }
    let m := messagesDelete true ⟨b.db, cleaned ctx⟩
    (b'.contexts.set c m.ctx).get c = some m.ctx ∧
    ((b'.contexts.set c m.ctx).modify c (·.willClear)).get c = some m.ctx ∧
    contextCleanup env c b = { b' with
      db := m.db
      contexts := ((b'.contexts.set c m.ctx).modify c (·.willClear)).del c } := by
  intro b' m
  have hget₁ : b'.contexts.get c = some (cleaned ctx) :=
    (Heap.get_modify ..).trans ((if_pos rfl).trans (congrArg (Option.map cleaned) hget))
  have hm : (b'.onClient c fun m => (Rc.success, messagesDelete true m)).2 =
      { b' with db := m.db, contexts := b'.contexts.set c m.ctx } := by
    unfold State.onClient
    rw [hget₁]
    rfl
  have hparty : party m.ctx = party (cleaned ctx) :=
    (quiet_messagesDelete true ⟨b.db, cleaned ctx⟩).party
  have hget₂ : (b'.contexts.set c m.ctx).get c = some m.ctx := Heap.get_set_self _ _ _
  have hwill₂ : m.ctx.will = none := (congrArg Party.will hparty).trans hwill
  have hid₂ : m.ctx.id = none := (congrArg Party.id hparty).trans hid
  have hget₃ : ((b'.contexts.set c m.ctx).modify c (·.willClear)).get c = some m.ctx := by
    have hsame : m.ctx.willClear = m.ctx := if_neg (by simp [hwill₂])
    rw [Heap.get_modify, if_pos rfl, hget₂, Option.map_some, hsame]
  refine ⟨hget₂, hget₃, ?_⟩
  let b₂ : State := { b' with db := m.db, contexts := b'.contexts.set c m.ctx }
  show { contextRemoveFromById c (contextSendWill env c (b'.onClient c fun m =>
      (Rc.success, messagesDelete true m)).2) with
    contexts := (contextRemoveFromById c (contextSendWill env c (b'.onClient c fun m =>
      (Rc.success, messagesDelete true m)).2)).contexts.del c } = _
  rw [hm, contextSendWill_none (b := b₂) hget₂ hwill₂,
    contextRemoveFromById_none (b := b₂.modifyClient c (·.willClear)) hget₃ hid₂]
  rfl

/-- A client that is not there is not freed. -/
theorem contextCleanup_gone {env : Env} {b : State} (hget : b.contexts.get c = none) :
    contextCleanup env c b = { b with subs := b.subs.edit c (subCleanSession c) } := by
  have hmod : b.modifyClient c cleaned = b := by
    unfold State.modifyClient Heap.modify
    rw [hget]
  unfold contextCleanup
  rw [hmod]
  simp only [State.onClient, contextSendWill, contextRemoveFromById, hget, Heap.del_of_none hget]

theorem moves_contextCleanup (hend : ∀ ctx, w.b.contexts.get c = some ctx → Ending T ctx) :
    Moves T w (w.at (contextCleanup T.env c w.b)) := by
  cases hget : w.b.contexts.get c with
  | none =>
    rw [contextCleanup_gone hget]
    exact moves_aside (aside_subs _ _)
  | some ctx =>
    obtain ⟨hwill, hid, hinterval, hstorage⟩ := hend ctx hget
    obtain ⟨-, hget₃, heq⟩ := @contextCleanup_eq c T.env w.b ctx hget hwill hid
    have hclose : Moves T w (w.at (w.b.modifyClient c cleaned)) := moves_modify fun ctx' h => by
      cases hget.symm.trans h
      exact fieldsOnly_same rfl rfl rfl rfl rfl (.inr rfl) rfl rfl rfl rfl rfl fun _ _ _ => hinterval
    let b' := { w.b.modifyClient c cleaned with subs := w.b.subs.edit c (subCleanSession c) }
    have hget₁ : b'.contexts.get c = some (cleaned ctx) :=
      (Heap.get_modify ..).trans ((if_pos rfl).trans (congrArg (Option.map cleaned) hget))
    have hdelete := ((hclose.tail (.aside (aside_subs _ (w.b.subs.edit c (subCleanSession c))))).trans
      (moves_onPut (w := w) (b := b') hget₁)).trans moves_messagesDelete
    have hclear := hdelete.trans (moves_fields (c := c) fun _ => fieldsOnly_willClear)
    rw [heq]
    refine hclear.tail (Move.free (w := (w.at b').at _) hget₃ fun ht d => ?_)
    rw [messagesDelete_all]
    exact (congrArg MsgData.storage (by cases d <;> rfl)).trans (hstorage ht d)

theorem contextCleanup_get {env : Env} {b : State}
    (hend : ∀ ctx, b.contexts.get c = some ctx → Ending T ctx) (d : CtxId) :
    (contextCleanup env c b).contexts.get d = if d = c then none else b.contexts.get d := by
  cases hget : b.contexts.get c with
  | none =>
    rw [contextCleanup_gone hget]
    split
    · rename_i hd
      exact hd ▸ hget
    · rfl
  | some ctx =>
    have hctx := hend ctx hget
    rw [(contextCleanup_eq hget hctx.will hctx.id).2.2, Heap.get_del]
    split
    · rfl
    · rename_i hd
      rw [Heap.get_modify_ne _ _ hd, Heap.get_set_ne _ _ hd]
      exact Heap.get_modify_ne _ _ hd

theorem moves_freeLoop (l : List CtxId) : ∀ w : World,
    (∀ c ∈ l, ∀ ctx, w.b.contexts.get c = some ctx → Ending T ctx) →
      Moves T w (w.at (l.foldl (fun b c => contextCleanup T.env c b) w.b)) := by
  induction l with
  | nil => exact fun _ _ => .refl
  | cons c l ih =>
    intro w hend
    have hc := hend c List.mem_cons_self
    refine (moves_contextCleanup hc).trans (ih (w.at _) fun d hd ctx hget => ?_)
    have hget : (contextCleanup T.env c w.b).contexts.get d = some ctx := hget
    rw [contextCleanup_get hc] at hget
    split at hget
    · cases hget
    · exact hend d (List.mem_cons_of_mem _ hd) ctx hget

theorem moves_contextFreeDisused
    (hend : ∀ c ∈ w.b.llForFree, ∀ ctx, w.b.contexts.get c = some ctx → Ending T ctx) :
    Moves T w (w.at (contextFreeDisused T.env w.b)) := by
  have hlist : Aside w.b { w.b with llForFree := [] } :=
    ⟨rfl, rfl, fun _ => rfl, rfl, rfl, fun _ => rfl, fun _ => rfl, fun _ h => nomatch h⟩
  exact (moves_aside hlist).trans (moves_freeLoop w.b.llForFree (w.at _) hend)

/-! ## The lists of sessions and wills -/

theorem moves_expiryLoop (hstay : ∀ c, ¬ T.leaving c) (l : List CtxId) : ∀ w : World,
    Wf T.conn w.b → w.fresh = none → Moves T w (w.at (expiryLoop T.env l w.b)) := by
  induction l with
  | nil => exact fun _ _ _ => .refl
  | cons c rest ih =>
    intro w hw hfresh
    unfold expiryLoop
    split
    · have hlist : Moves T w (w.at (sessionExpiryRemove c w.b)) :=
        moves_aside (.same rfl rfl rfl rfl rfl)
      have hend := hlist.trans (moves_fields (w := w.at _) (c := c)
        (f := fun ctx => { ctx with sessionExpiryInterval := 0, willDelayInterval := 0 }) fun _ =>
          fieldsOnly_same rfl rfl rfl rfl rfl (.inl rfl) rfl rfl rfl rfl rfl fun _ _ _ => rfl)
      have hwait := hend.tail (@Move.aside T (w.at _) (willDelayRemove c (State.modifyClient c _
        (sessionExpiryRemove c w.b))) (.same rfl rfl rfl rfl rfl))
      have hsent := hwait.trans (moves_contextSendWill (w := w.at _) (wf_moves hw hwait) hstay hfresh
        (c := c))
      have hgone := hsent.trans (moves_contextAddToDisused (w := w.at _) (c := c))
      exact hgone.trans (ih (w.at _) (wf_moves hw hgone) hfresh)
    · exact .refl

theorem moves_sessionExpiryCheck (hw : Wf T.conn w.b) (hstay : ∀ c, ¬ T.leaving c)
    (hfresh : w.fresh = none) : Moves T w (w.at (sessionExpiryCheck T.env w.b)) := by
  unfold sessionExpiryCheck
  split
  · exact .refl
  · have hlast : Moves T w (w.at { w.b with lastExpiryCheck := w.b.db.nowRealS }) :=
      moves_aside (.same rfl rfl rfl rfl rfl)
    exact hlast.trans (moves_expiryLoop hstay _ (w.at _) (wf_moves hw hlast) hfresh)

theorem moves_delayLoop (hstay : ∀ c, ¬ T.leaving c) (l : List CtxId) : ∀ w : World,
    Wf T.conn w.b → w.fresh = none → Moves T w (w.at (delayLoop T.env l w.b)) := by
  induction l with
  | nil => exact fun _ _ _ => .refl
  | cons c rest ih =>
    intro w hw hfresh
    unfold delayLoop
    split
    · have hlist : Moves T w (w.at (willDelayRemove c w.b)) :=
        moves_aside (.same rfl rfl rfl rfl rfl)
      have hnow := hlist.trans (moves_fields (w := w.at _) (c := c)
        (f := fun ctx => { ctx with willDelayInterval := 0 }) fun _ =>
          fieldsOnly_same rfl rfl rfl rfl rfl (.inl rfl) rfl rfl rfl rfl rfl fun h => h)
      have hsent := hnow.trans (moves_contextSendWill (w := w.at _) (wf_moves hw hnow) hstay hfresh
        (c := c))
      simp only
      split
      · have hgone := hsent.trans (moves_contextAddToDisused (w := w.at _) (c := c))
        exact hgone.trans (ih (w.at _) (wf_moves hw hgone) hfresh)
      · exact hsent.trans (ih (w.at _) (wf_moves hw hsent) hfresh)
    · exact .refl

theorem moves_willDelayCheck (hw : Wf T.conn w.b) (hstay : ∀ c, ¬ T.leaving c)
    (hfresh : w.fresh = none) : Moves T w (w.at (willDelayCheck T.env w.b)) := by
  unfold willDelayCheck
  split
  · exact .refl
  · have hlast : Moves T w (w.at { w.b with lastDelayCheck := w.b.db.nowRealS }) :=
      moves_aside (.same rfl rfl rfl rfl rfl)
    exact hlast.trans (moves_delayLoop hstay _ (w.at _) (wf_moves hw hlast) hfresh)

end Leaving

end AdaptiveMqtt.Broker
