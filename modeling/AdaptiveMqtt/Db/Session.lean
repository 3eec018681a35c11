import AdaptiveMqtt.Db.Conserve

/-!
# Sessions

What `database.c` does to the messages of a session when its client goes or comes back
(`db__messages_delete`, `db__message_reconnect_reset`), and the hand-over of the
messages of an old connection to a new one in `connect__on_authorised`.

The hand-over looks at four of the six lists and the reset counts two of three: a
session loses its stored messages when nothing else is left of it, and keeps them
uncounted otherwise.
-/

namespace AdaptiveMqtt.Db

open Lib

/-! ## Deleting -/

/-- The reference of a message that is taken off its list and freed. -/
def dropRef (dir : Direction) (msg : ClientMsg) (m : Machine) : Machine :=
  { db := m.db.msgStoreRefDec msg.store.addr
    ctx := if dir = .mdOut then m.ctx.drop msg.store.addr else m.ctx }

def messagesDeleteList (dir : Direction) (l : List ClientMsg) (m : Machine) : Machine :=
  l.foldl (fun m msg => dropRef dir msg m) m

/-- The lists after `db__messages_delete`: storage is not looked at. -/
def MsgData.deleted (md : MsgData) : MsgData :=
  { md with inflight := [], queued := [], msgBytes := 0, msgBytes12 := 0, msgCount := 0
            msgCount12 := 0 }

def messagesDelete (forceFree : Bool) (m : Machine) : Machine :=
  let delete := fun (dir : Direction) (m : Machine) =>
    let md := m.ctx.msgs dir
    (messagesDeleteList dir md.queued (messagesDeleteList dir md.inflight m)).onMsgs dir
      (·.deleted)
  let bridgeCleanStart := (m.ctx.bridge.map (·.cleanStart)).getD false
  let bridgeCleanStartLocal := (m.ctx.bridge.map (·.cleanStartLocal)).getD false
  let cleanIn := forceFree ∨ m.ctx.cleanStart ∨ bridgeCleanStart
  let cleanOut := forceFree ∨ bridgeCleanStartLocal ∨ (m.ctx.bridge = none ∧ m.ctx.cleanStart)
  let m := if cleanIn then delete .mdIn m else m
  if cleanOut then delete .mdOut m else m

/-! ## Resetting -/

/-- The totals start again from nothing, and the quota from the maximum. -/
def MsgData.restart (md : MsgData) : MsgData :=
  { md with msgBytes := 0, msgBytes12 := 0, msgCount := 0, msgCount12 := 0
            inflightQuota := md.inflightMaximum }

/-- The state in which a message that was in flight is sent again. -/
def ClientMsg.resend (msg : ClientMsg) : ClientMsg :=
  if msg.qos = .q2 ∧ msg.state = .waitForPubcomp then { msg with state := .resendPubrel }
  else msg.toPublish

/-- The loop over `msgs_out.inflight` of `db__message_reconnect_reset_outgoing`. -/
def resetInflightOutLoop : List ClientMsg → MsgData → MsgData
  | [], md => md
  | msg :: rest, md =>
    let md := md.count msg msg.qos
    let md := if msg.qos ≠ .q0 then md.decrementQuota else md
    resetInflightOutLoop rest { md with inflight := updateAt msg.addr ClientMsg.resend md.inflight }

/-- The loop over the queue of both resets: the state is set on the message the loop is
at, and the head of the queue is what moves. -/
def resetQueuedLoop (config : Config) (dir : Direction) : List ClientMsg → Context → Context
  | [], ctx => ctx
  | msg :: rest, ctx =>
    let ctx := ctx.setMsgs dir ((ctx.msgs dir).count msg msg.qos)
    let ctx :=
      if readyForFlight config ctx dir msg.qos then
        let md := ctx.msgs dir
        let md := { md with queued := updateAt msg.addr ClientMsg.toPublish md.queued }
        ctx.setMsgs dir md.dequeueFirst
      else ctx
    resetQueuedLoop config dir rest ctx

def reconnectResetOutgoing (config : Config) (ctx : Context) : Context :=
  let md := resetInflightOutLoop ctx.msgsOut.inflight ctx.msgsOut.restart
  resetQueuedLoop config .mdOut ctx.msgsOut.queued { ctx with msgsOut := md }

/-- The loop over `msgs_in.inflight` of `db__message_reconnect_reset_incoming`. -/
def resetInflightInLoop : List ClientMsg → Machine → Machine
  | [], m => m
  | msg :: rest, m =>
    let m := m.onMsgs .mdIn fun md =>
      let md := md.count msg msg.qos
      if msg.qos ≠ .q0 then md.decrementQuota else md
    resetInflightInLoop rest (if msg.qos ≠ .q2 then m.messageRemove .mdIn msg else m)

def reconnectResetIncoming (m : Machine) : Machine :=
  let queued := m.ctx.msgsIn.queued
  let m := resetInflightInLoop m.ctx.msgsIn.inflight (m.onMsgs .mdIn (·.restart))
  { m with ctx := resetQueuedLoop m.db.config .mdIn queued m.ctx }

def reconnectReset (m : Machine) : Machine :=
  reconnectResetIncoming { m with ctx := reconnectResetOutgoing m.db.config m.ctx }

/-! ## Handing over -/

/-- The lists of `found`, with the quota and the maximum of the new connection. -/
def MsgData.takeOver (found md : MsgData) : MsgData :=
  { found with inflightQuota := md.inflightQuota, inflightMaximum := md.inflightMaximum }

/-- The old connection has messages that `connect__on_authorised` looks for. -/
abbrev Context.Carries (ctx : Context) : Prop :=
  ctx.msgsIn.inflight ≠ [] ∨ ctx.msgsIn.queued ≠ [] ∨ ctx.msgsOut.inflight ≠ [] ∨
    ctx.msgsOut.queued ≠ []

/-- The lists of `found` become those of the client at work. -/
def takeMessages (found : Context) (m : Machine) : Machine :=
  reconnectReset { m with ctx := { m.ctx with
    msgsIn := found.msgsIn.takeOver m.ctx.msgsIn
    msgsOut := found.msgsOut.takeOver m.ctx.msgsOut } }

/-- What `connect__on_authorised` does with the messages of `found`, the old connection of
the client at work. The old connection is the second result. -/
def handOver (found : Context) (m : Machine) : Machine × Context :=
  if m.ctx.cleanStart = false ∧ found.sessionExpiryInterval > 0 then
    let r :=
      if found.Carries then
        (takeMessages found m, { found with msgsIn := .empty 0, msgsOut := .empty 0 })
      else (m, found)
    ({ r.1 with ctx := { r.1.ctx with lastMid := found.lastMid } }, r.2)
  else (m, found)

/-- **Nothing is lost**: the outgoing messages of `found` are those of `ctx`, each in one
list, and the totals are right. -/
structure KeepsMessages (found ctx : Context) : Prop where
  perm : (ctx.msgsOut.all.map ClientMsg.key).Perm (found.msgsOut.all.map ClientMsg.key)
  nodup : (ctx.msgsOut.all.map (·.addr)).Nodup
  tallied : ctx.msgsOut.Tallied

/-! ### What the reset does to the lists -/

section Reset

variable {md md' : MsgData}

def Totals.add (t t' : Totals) : Totals :=
  ⟨t.msgCount + t'.msgCount, t.msgBytes + t'.msgBytes, t.msgCount12 + t'.msgCount12,
    t.msgBytes12 + t'.msgBytes12⟩

theorem Totals.add_assoc (t t' t'' : Totals) : (t.add t').add t'' = t.add (t'.add t'') := by
  ext <;> simp [Totals.add, Int.add_assoc]

theorem Totals.add_zero (t : Totals) : t.add (totalsOf []) = t := by
  ext <;> simp [totalsOf, Totals.add]

theorem totalsOf_append (l l' : List ClientMsg) :
    totalsOf (l ++ l') = (totalsOf l).add (totalsOf l') := by
  ext <;> simp [totalsOf, Totals.add]

/-- The messages of `l` are added to the totals; the lists hold the same messages as
before, and storage is as it was. -/
structure Counts (l : List ClientMsg) (md md' : MsgData) : Prop where
  perm : (md'.all.map ClientMsg.key).Perm (md.all.map ClientMsg.key)
  storage : md'.storage = md.storage
  totals : md'.totals = md.totals.add (totalsOf l)

theorem writes_resend : Writes ClientMsg.resend := by
  refine ⟨fun msg => ?_, fun msg _ => ?_⟩
  · unfold ClientMsg.resend
    split <;> rfl
  · unfold ClientMsg.resend
    split
    · exact fun h => nomatch h
    · exact msg.stateOk_toPublish

theorem Counts.refl (md : MsgData) : Counts [] md md :=
  ⟨List.Perm.refl _, rfl, (Totals.add_zero _).symm⟩

theorem Counts.trans {md'' : MsgData} {l l' : List ClientMsg} (h : Counts l md md')
    (h' : Counts l' md' md'') : Counts (l ++ l') md md'' := by
  refine ⟨h'.perm.trans h.perm, h'.storage.trans h.storage, ?_⟩
  rw [h'.totals, h.totals, totalsOf_append, Totals.add_assoc]

theorem Shuffle.counts (h : Shuffle md md') (hs : md'.storage = md.storage) : Counts [] md md' := by
  refine ⟨h.perm, hs, ?_⟩
  rw [h.totals, Totals.add_zero]

theorem counts_count (md : MsgData) (msg : ClientMsg) : Counts [msg] md (md.count msg msg.qos) := by
  obtain ⟨hall, hstorage⟩ := MsgData.count_all md msg msg.qos
  refine ⟨by rw [hall], hstorage, ?_⟩
  unfold MsgData.count MsgData.totals
  by_cases hq : msg.qos = .q0
  · ext <;> simp [hq, totalsOf, Totals.add]
  · ext <;> simp [hq, totalsOf, Totals.add]

theorem decrementQuota_lists (md : MsgData) :
    md.decrementQuota.storage = md.storage ∧ md.decrementQuota.queued = md.queued := by
  unfold MsgData.decrementQuota
  split <;> exact ⟨rfl, rfl⟩

theorem counts_dequeueFirst (md : MsgData) : Counts [] md md.dequeueFirst := by
  refine (Shuffle.dequeueFirst md).counts ?_
  unfold MsgData.dequeueFirst
  split
  · rfl
  · exact (decrementQuota_lists _).1

theorem counts_inflight (msg : ClientMsg) (md : MsgData) :
    Counts [msg] md (if msg.qos ≠ .q0 then (md.count msg msg.qos).decrementQuota
      else md.count msg msg.qos) := by
  split
  · exact (counts_count md msg).trans
      ((Shuffle.decrementQuota _).counts (decrementQuota_lists _).1)
  · exact counts_count md msg

theorem counts_moveUp (addr : Nat) (md : MsgData) :
    Counts [] md { md with queued := updateAt addr ClientMsg.toPublish md.queued }.dequeueFirst :=
  ((Shuffle.updateQueued writes_toPublish md).counts rfl).trans (counts_dequeueFirst _)

theorem resetInflightOutLoop_spec (l : List ClientMsg) (md : MsgData) :
    Counts l md (resetInflightOutLoop l md) := by
  induction l generalizing md with
  | nil => exact .refl md
  | cons msg rest ih =>
    have hwrite : ∀ md : MsgData, Counts [] md
        { md with inflight := updateAt msg.addr ClientMsg.resend md.inflight } := fun md =>
      (Shuffle.updateInflight writes_resend md).counts rfl
    exact (counts_inflight msg md).trans ((hwrite _).trans (ih _))

theorem resetQueuedLoop_spec (config : Config) (dir : Direction) (l : List ClientMsg)
    (ctx : Context) :
    Counts l (ctx.msgs dir) ((resetQueuedLoop config dir l ctx).msgs dir) ∧
    ∀ d, d ≠ dir → (resetQueuedLoop config dir l ctx).msgs d = ctx.msgs d := by
  induction l generalizing ctx with
  | nil => exact ⟨.refl _, fun _ _ => rfl⟩
  | cons msg rest ih =>
    have hcount := counts_count (ctx.msgs dir) msg
    -- what the round leaves of the client, and what the other rounds make of it
    have hround : ∀ ctx' : Context, Counts [msg] (ctx.msgs dir) (ctx'.msgs dir) →
        (∀ d, d ≠ dir → ctx'.msgs d = ctx.msgs d) →
        Counts (msg :: rest) (ctx.msgs dir) ((resetQueuedLoop config dir rest ctx').msgs dir) ∧
        ∀ d, d ≠ dir → (resetQueuedLoop config dir rest ctx').msgs d = ctx.msgs d :=
      fun ctx' hc hd => ⟨hc.trans (ih ctx').1, fun d hne => ((ih ctx').2 d hne).trans (hd d hne)⟩
    unfold resetQueuedLoop
    simp only [Context.msgs_setMsgs_self]
    split
    · refine hround _ ?_ fun d hd => ?_
      · rw [Context.msgs_setMsgs_self]
        exact hcount.trans (counts_moveUp _ _)
      · rw [Context.msgs_setMsgs_ne _ _ hd, Context.msgs_setMsgs_ne _ _ hd]
    · refine hround _ ?_ fun d hd => Context.msgs_setMsgs_ne _ _ hd
      rw [Context.msgs_setMsgs_self]
      exact hcount

/-- After the reset the totals are those of the messages in flight and in the queue. -/
theorem reconnectResetOutgoing_spec (config : Config) (ctx : Context) :
    Counts (ctx.msgsOut.inflight ++ ctx.msgsOut.queued) ctx.msgsOut.restart
      (reconnectResetOutgoing config ctx).msgsOut :=
  (resetInflightOutLoop_spec ctx.msgsOut.inflight ctx.msgsOut.restart).trans
    (resetQueuedLoop_spec config .mdOut ctx.msgsOut.queued
      { ctx with msgsOut := resetInflightOutLoop ctx.msgsOut.inflight ctx.msgsOut.restart }).1

theorem resetInflightInLoop_msgsOut (l : List ClientMsg) (m : Machine) :
    (resetInflightInLoop l m).ctx.msgsOut = m.ctx.msgsOut := by
  induction l generalizing m with
  | nil => rfl
  | cons msg rest ih =>
    unfold resetInflightInLoop
    rw [ih]
    split <;> rfl

theorem reconnectReset_msgsOut (m : Machine) :
    (reconnectReset m).ctx.msgsOut = (reconnectResetOutgoing m.db.config m.ctx).msgsOut := by
  unfold reconnectReset reconnectResetIncoming
  refine ((resetQueuedLoop_spec _ .mdIn _ _).2 .mdOut (by decide)).trans ?_
  exact resetInflightInLoop_msgsOut _ _

end Reset

/-! ## What the hand-over keeps -/

section HandOver

variable {found : Context} {m : Machine}

theorem handOver_carries (hclean : m.ctx.cleanStart = false)
    (hexpiry : found.sessionExpiryInterval > 0) (hc : found.Carries) :
    (((handOver found m).1.ctx.msgsOut.all.map ClientMsg.key).Perm
      (found.msgsOut.all.map ClientMsg.key)) ∧
    (handOver found m).1.ctx.msgsOut.totals =
      totalsOf (found.msgsOut.inflight ++ found.msgsOut.queued) := by
  have hout : (handOver found m).1.ctx.msgsOut = (takeMessages found m).ctx.msgsOut := by
    unfold handOver
    rw [if_pos ⟨hclean, hexpiry⟩]
    simp only [if_pos hc]
  rw [hout, takeMessages, reconnectReset_msgsOut]
  have h := reconnectResetOutgoing_spec m.db.config
    { m.ctx with msgsIn := found.msgsIn.takeOver m.ctx.msgsIn
                 msgsOut := found.msgsOut.takeOver m.ctx.msgsOut }
  refine ⟨h.perm, h.totals.trans ?_⟩
  ext <;> simp [Totals.add, MsgData.totals, MsgData.restart, MsgData.takeOver]

theorem handOver_leaves (hc : ¬ found.Carries) :
    (handOver found m).1.ctx.msgsOut = m.ctx.msgsOut := by
  unfold handOver
  split
  · simp only
  · rfl

/-- **The hand-over keeps the outgoing messages and their totals if and only if none is
stored.** -/
theorem handOver_keeps_iff (hclean : m.ctx.cleanStart = false)
    (hexpiry : found.sessionExpiryInterval > 0)
    (hnodup : (found.msgsOut.all.map (·.addr)).Nodup)
    (hnew : m.ctx.msgsOut.all = [] ∧ m.ctx.msgsOut.totals = ⟨0, 0, 0, 0⟩) :
    KeepsMessages found (handOver found m).1.ctx ↔ found.msgsOut.storage = [] := by
  by_cases hc : found.Carries
  · obtain ⟨hperm, htotals⟩ := handOver_carries hclean hexpiry hc
    have haddr : ((handOver found m).1.ctx.msgsOut.all.map (·.addr)).Nodup := by
      rw [map_addr_eq] at hnodup ⊢
      exact (hperm.map _).nodup_iff.mpr hnodup
    constructor
    · intro h
      have hall : totalsOf (found.msgsOut.inflight ++ found.msgsOut.queued) =
          totalsOf found.msgsOut.all := by
        rw [← htotals, h.tallied, totalsOf_keys hperm]
      have hlen := congrArg Totals.msgCount hall
      simp only [totalsOf, MsgData.all, List.length_append] at hlen
      exact List.length_eq_zero_iff.mp (by omega)
    · intro hs
      refine ⟨hperm, haddr, ?_⟩
      show _ = totalsOf _
      rw [htotals, totalsOf_keys hperm, MsgData.all, hs, List.append_nil]
  · have hout := (handOver_leaves (m := m) hc).symm
    have hstored : found.msgsOut.all = found.msgsOut.storage := by
      simp only [not_or, not_not] at hc
      rw [MsgData.all, hc.2.2.1, hc.2.2.2, List.append_nil, List.nil_append]
    constructor
    · intro h
      have hperm := h.perm
      rw [← hout, hnew.1, hstored] at hperm
      exact List.map_eq_nil_iff.mp hperm.symm.eq_nil
    · intro hs
      refine ⟨?_, ?_, ?_⟩
      · rw [← hout, hnew.1, hstored, hs]
      · rw [← hout, hnew.1]
        exact List.nodup_nil
      · show _ = totalsOf _
        rw [← hout, hnew.1, hnew.2]
        rfl

end HandOver

/-- An outgoing message of one byte at QoS 1. -/
def ClientMsg.byte (addr : Nat) (state : MsgState) : ClientMsg :=
  { addr, store := MsgStore.byte addr, properties := [], timestamp := 0, mid := UInt16.ofNat addr
    qos := .q1, retain := false, direction := .mdOut, state, dup := false, storageTime := 0 }

/-- A client that keeps its session and has left these messages behind. -/
def Context.leaving (inflight queued storage : List ClientMsg) : Context :=
  let all := inflight ++ queued ++ storage
  { Machine.idle.ctx with
    sock := none, cleanStart := false, sessionExpiryInterval := 0xFFFFFFFF
    msgsOut := { MsgData.empty 20 with
      inflight, queued, storage, msgCount := all.length, msgCount12 := all.length
      msgBytes := all.length, msgBytes12 := all.length } }

/-- The same client comes back. -/
def Machine.returning : Machine :=
  { Machine.idle with ctx := { Machine.idle.ctx with cleanStart := false } }

/-- One message was in flight and one queued. -/
theorem handOver_keeps_two :
    let found := Context.leaving [.byte 1 .waitForPuback] [.byte 2 .queued] []
    (handOver found .returning).1.ctx.msgsOut.inflight.length = 2 ∧
      KeepsMessages found (handOver found .returning).1.ctx := by
  intro found
  exact ⟨by decide, (handOver_keeps_iff rfl (by decide) (by decide) ⟨rfl, rfl⟩).mpr rfl⟩

/-- **Stored messages are lost or not counted.** A session of one stored message is not
handed over; with a queued message beside it, it is and the totals miss it. -/
theorem handOver_loses_stored :
    let found := Context.leaving [] [] [.byte 1 .storage]
    let found' := Context.leaving [] [.byte 2 .queued] [.byte 1 .storage]
    ¬ KeepsMessages found (handOver found .returning).1.ctx ∧
      ¬ KeepsMessages found' (handOver found' .returning).1.ctx := by
  refine ⟨fun h => ?_, fun h => ?_⟩
  · exact absurd h.perm.length_eq (by decide)
  · exact absurd (congrArg Totals.msgCount h.tallied) (by decide)

end AdaptiveMqtt.Db
