import AdaptiveMqtt.Db.Session
import AdaptiveMqtt.Db.Writers

/-!
# The lists after a hand-over

`db__message_reconnect_reset_outgoing` makes the messages in flight ready to be sent again,
and lets queued messages follow. As in the flushes the state is set on the message the loop
is at and the head of the queue is what moves. Here the loop does not stop at the first
message that is not ready, so the two can fall apart: `InTurn` says that they do not.
-/

namespace AdaptiveMqtt.Db

/-! ## Messages in flight -/

section Inflight

theorem count_lists (md : MsgData) (msg : ClientMsg) (qos : Qos) :
    (md.count msg qos).inflight = md.inflight ∧ (md.count msg qos).queued = md.queued ∧
      (md.count msg qos).storage = md.storage := by
  unfold MsgData.count
  simp only
  split <;> exact ⟨rfl, rfl, rfl⟩

/-- The messages in flight are sent again, each as it has to be. -/
theorem resetInflightOutLoop_lists (l pre : List ClientMsg) (md : MsgData)
    (hin : md.inflight = pre ++ l) (hnd : (md.inflight.map (·.addr)).Nodup) :
    (resetInflightOutLoop l md).inflight = pre ++ l.map ClientMsg.resend ∧
      (resetInflightOutLoop l md).queued = md.queued := by
  induction l generalizing pre md with
  | nil => exact ⟨hin, rfl⟩
  | cons msg rest ih =>
    obtain ⟨hcin, hcq, -⟩ := count_lists md msg msg.qos
    obtain ⟨hdin, hdq, -⟩ := decrementQuota_fields (md.count msg msg.qos)
    generalize hmd₁ : (if msg.qos ≠ .q0 then (md.count msg msg.qos).decrementQuota
      else md.count msg msg.qos) = md₁
    have hin₁ : md₁.inflight = pre ++ msg :: rest := by
      rw [← hmd₁]
      split
      · rw [hdin, hcin, hin]
      · rw [hcin, hin]
    have hq₁ : md₁.queued = md.queued := by
      rw [← hmd₁]
      split
      · rw [hdq, hcq]
      · exact hcq
    rw [hin] at hnd
    have hkey : ∀ a : ClientMsg, (ClientMsg.resend a).addr = a.addr := by
      intro a
      unfold ClientMsg.resend
      split <;> rfl
    have hup : updateAt msg.addr ClientMsg.resend md₁.inflight =
        pre ++ [msg.resend] ++ rest := by
      rw [hin₁, updateAt_middle hnd]
      simp
    have hnd' : ((pre ++ [msg.resend] ++ rest).map (·.addr)).Nodup := by
      simpa [hkey] using hnd
    unfold resetInflightOutLoop
    simp only [hmd₁]
    obtain ⟨h1, h2⟩ := ih (pre ++ [msg.resend])
      { md₁ with inflight := updateAt msg.addr ClientMsg.resend md₁.inflight } hup (by
        show ((updateAt msg.addr ClientMsg.resend md₁.inflight).map _).Nodup
        rw [hup]
        exact hnd')
    refine ⟨h1.trans (by simp), h2.trans hq₁⟩

/-- A message that was in flight is sent again. -/
theorem ClientMsg.Settled.resend {a : ClientMsg} (h : a.Settled) : a.resend.Settled := by
  unfold ClientMsg.resend
  split
  · rename_i hwait
    have hdup : a.dup = true := h.dup (by rw [hwait.2]; rfl)
    exact .inr ⟨hdup, .inr (.inr (.inr rfl))⟩
  · exact .inl (publishState_isPublish a.qos)

end Inflight

/-! ## The queue -/

def resetRound (config : Config) (msg : ClientMsg) (ctx : Context) : Context :=
  let ctx := ctx.setMsgs .mdOut ((ctx.msgs .mdOut).count msg msg.qos)
  if readyForFlight config ctx .mdOut msg.qos then
    let md := ctx.msgs .mdOut
    let md := { md with queued := updateAt msg.addr ClientMsg.toPublish md.queued }
    ctx.setMsgs .mdOut md.dequeueFirst
  else ctx

/-- Whether `db__ready_for_flight` lets each message of the queue go when the loop is at it. -/
def resetReady (config : Config) : List ClientMsg → Context → List Bool
  | [], _ => []
  | msg :: rest, ctx =>
    readyForFlight config (ctx.setMsgs .mdOut ((ctx.msgs .mdOut).count msg msg.qos)) .mdOut msg.qos
      :: resetReady config rest (resetRound config msg ctx)

/-- No message of the queue is ready behind one that is not. -/
def InTurn (config : Config) (l : List ClientMsg) (ctx : Context) : Prop :=
  (resetReady config l ctx).Pairwise fun a b => b = true → a = true

section Queue

variable {config : Config}

theorem resetQueuedLoop_cons (msg : ClientMsg) (rest : List ClientMsg) (ctx : Context) :
    resetQueuedLoop config .mdOut (msg :: rest) ctx =
      resetQueuedLoop config .mdOut rest (resetRound config msg ctx) := rfl

theorem resetQueuedLoop_none (l : List ClientMsg) (ctx : Context)
    (h : ∀ b ∈ resetReady config l ctx, b = false) :
    (resetQueuedLoop config .mdOut l ctx).msgsOut.inflight = ctx.msgsOut.inflight ∧
      (resetQueuedLoop config .mdOut l ctx).msgsOut.queued = ctx.msgsOut.queued := by
  induction l generalizing ctx with
  | nil => exact ⟨rfl, rfl⟩
  | cons msg rest ih =>
    have hnot := h _ List.mem_cons_self
    obtain ⟨hcin, hcq, -⟩ := count_lists ctx.msgsOut msg msg.qos
    have hround : resetRound config msg ctx =
        ctx.setMsgs .mdOut ((ctx.msgs .mdOut).count msg msg.qos) := by
      unfold resetRound
      simp only
      rw [if_neg (by rw [hnot]; exact Bool.false_ne_true)]
    rw [resetQueuedLoop_cons]
    obtain ⟨h1, h2⟩ := ih (resetRound config msg ctx) fun b hb =>
      h b (List.mem_cons_of_mem _ hb)
    rw [hround] at h1 h2 ⊢
    exact ⟨h1.trans hcin, h2.trans hcq⟩

theorem resetQueuedLoop_inTurn (l : List ClientMsg) (ctx : Context) (hl : ctx.msgsOut.queued = l)
    (hnd : (ctx.msgsOut.queued.map (·.addr)).Nodup) (h : InTurn config l ctx) :
    ∃ k, (resetQueuedLoop config .mdOut l ctx).msgsOut.inflight =
        ctx.msgsOut.inflight ++ (l.take k).map ClientMsg.toPublish ∧
      (resetQueuedLoop config .mdOut l ctx).msgsOut.queued = l.drop k := by
  induction l generalizing ctx with
  | nil => exact ⟨0, by simp [resetQueuedLoop], hl⟩
  | cons msg rest ih =>
    obtain ⟨hcin, hcq, -⟩ := count_lists ctx.msgsOut msg msg.qos
    unfold InTurn resetReady at h
    rw [List.pairwise_cons] at h
    by_cases hready : readyForFlight config
        (ctx.setMsgs .mdOut ((ctx.msgs .mdOut).count msg msg.qos)) .mdOut msg.qos = true
    · have hmove := moveUp_one (f := ClientMsg.toPublish) (hcq.trans hl) (by
        rw [hcq]
        exact hnd)
      have hround : (resetRound config msg ctx).msgsOut =
          (ctx.msgsOut.count msg msg.qos).moveUp ClientMsg.toPublish 1 := by
        unfold resetRound
        simp only
        rw [if_pos hready]
        exact hmove
      have hq : (resetRound config msg ctx).msgsOut.queued = rest := by
        rw [hround]
        exact moveUp_queued_one (hcq.trans hl)
      have hin : (resetRound config msg ctx).msgsOut.inflight =
          ctx.msgsOut.inflight ++ [msg.toPublish] := by
        rw [hround]
        simp [MsgData.moveUp, hcin, hcq, hl]
      rw [hl, List.map_cons, List.nodup_cons] at hnd
      obtain ⟨k, h1, h2⟩ := ih (resetRound config msg ctx) hq (by rw [hq]; exact hnd.2) h.2
      rw [resetQueuedLoop_cons]
      refine ⟨k + 1, ?_, ?_⟩
      · rw [h1, hin]
        simp
      · rw [h2]
        rfl
    · -- the first that is not ready: none behind it is
      obtain ⟨h1, h2⟩ := @resetQueuedLoop_none config (msg :: rest) ctx fun b hb => by
        rcases List.mem_cons.mp hb with rfl | hb
        · simpa using hready
        · by_contra hb'
          exact hready (h.1 b hb (by simpa using hb'))
      exact ⟨0, by simp [h1], by simp [h2, hl]⟩

end Queue

/-! ## The hand-over -/

/-- The client at work with the lists of `found`, its old connection. -/
def Context.entering (ctx found : Context) : Context :=
  { ctx with msgsIn := found.msgsIn.takeOver ctx.msgsIn
             msgsOut := found.msgsOut.takeOver ctx.msgsOut }

/-- The queue of `found` is in turn when the reset comes to it. -/
def HandedInTurn (config : Config) (found ctx : Context) : Prop :=
  let ctx := ctx.entering found
  InTurn config found.msgsOut.queued
    { ctx with msgsOut := resetInflightOutLoop ctx.msgsOut.inflight ctx.msgsOut.restart }

section HandOver

variable {found : Context} {m : Machine}

theorem resetQueuedLoop_state (config : Config) (dir : Direction) (l : List ClientMsg)
    (ctx : Context) : (resetQueuedLoop config dir l ctx).state = ctx.state := by
  have hset : ∀ (ctx : Context) (md : MsgData), (ctx.setMsgs dir md).state = ctx.state := by
    intro ctx md
    cases dir <;> rfl
  induction l generalizing ctx with
  | nil => rfl
  | cons msg rest ih =>
    unfold resetQueuedLoop
    simp only
    rw [ih]
    split
    · rw [hset, hset]
    · rw [hset]

theorem around_resetInflightInLoop (l : List ClientMsg) (m : Machine) :
    Around m (resetInflightInLoop l m) := by
  induction l generalizing m with
  | nil => exact .refl m
  | cons msg rest ih =>
    unfold resetInflightInLoop
    simp only
    refine Around.trans ?_ (ih _)
    have hcount : ∀ f : MsgData → MsgData, Around m (m.onMsgs .mdIn f) := fun f =>
      ⟨rfl, le_rfl, le_rfl, rfl⟩
    have hremove : ∀ m : Machine, Around m (m.messageRemove .mdIn msg) := by
      intro m
      obtain ⟨hclock, htick⟩ := refDec_clock msg.store.addr m.db
      exact ⟨hclock, htick.ge, (refDec_nextMsg _ _).ge, rfl⟩
    split
    · exact (hcount _).trans (hremove _)
    · exact hcount _

theorem around_reconnectReset (m : Machine) : Around m (reconnectReset m) := by
  let m₁ : Machine := { m with ctx := reconnectResetOutgoing m.db.config m.ctx }
  let m₂ : Machine := m₁.onMsgs .mdIn MsgData.restart
  let m₃ : Machine := resetInflightInLoop m₁.ctx.msgsIn.inflight m₂
  let m₄ : Machine :=
    { m₃ with ctx := resetQueuedLoop m₃.db.config .mdIn m₁.ctx.msgsIn.queued m₃.ctx }
  have h₁ : Around m m₁ := ⟨rfl, le_rfl, le_rfl, resetQueuedLoop_state _ _ _ _⟩
  have h₂ : Around m₁ m₂ := ⟨rfl, le_rfl, le_rfl, rfl⟩
  have h₃ : Around m₂ m₃ := around_resetInflightInLoop _ _
  have h₄ : Around m₃ m₄ := ⟨rfl, le_rfl, le_rfl, resetQueuedLoop_state _ _ _ _⟩
  exact ((h₁.trans h₂).trans h₃).trans h₄

theorem around_handOver (found : Context) (m : Machine) : Around m (handOver found m).1 := by
  have htake : Around m (takeMessages found m) := by
    have henter : Around m { m with ctx := m.ctx.entering found } := ⟨rfl, le_rfl, le_rfl, rfl⟩
    exact henter.trans (around_reconnectReset _)
  unfold handOver
  split
  · simp only
    split
    · exact htake.trans ⟨rfl, le_rfl, le_rfl, rfl⟩
    · exact ⟨rfl, le_rfl, le_rfl, rfl⟩
  · exact .refl m

/-- The new connection has the messages of the old one, or its own. -/
theorem handOver_msgsOut (found : Context) (m : Machine) :
    (handOver found m).1.ctx.msgsOut = m.ctx.msgsOut ∨ (handOver found m).1.ctx.msgsOut =
      (reconnectResetOutgoing m.db.config (m.ctx.entering found)).msgsOut := by
  unfold handOver
  split
  · simp only
    split
    · exact .inr (reconnectReset_msgsOut _)
    · exact .inl rfl
  · exact .inl rfl

theorem reconnectResetOutgoing_keys (config : Config) (found ctx : Context) :
    ((reconnectResetOutgoing config (ctx.entering found)).msgsOut.all.map ClientMsg.key).Perm
      (found.msgsOut.all.map ClientMsg.key) ∧
    (reconnectResetOutgoing config (ctx.entering found)).msgsOut.storage =
      found.msgsOut.storage := by
  have hcounts := reconnectResetOutgoing_spec config (ctx.entering found)
  exact ⟨hcounts.perm, hcounts.storage⟩

/-- What a hand-over in turn leaves in flight and in the queue. -/
theorem reconnectResetOutgoing_inTurn {config : Config} {ctx : Context}
    (hnd : (found.msgsOut.all.map (·.addr)).Nodup) (h : HandedInTurn config found ctx) :
    ∃ k, (reconnectResetOutgoing config (ctx.entering found)).msgsOut.inflight =
      found.msgsOut.inflight.map ClientMsg.resend ++
        (found.msgsOut.queued.take k).map ClientMsg.toPublish := by
  have hin : (found.msgsOut.inflight.map (·.addr)).Nodup := by
    refine hnd.sublist (List.Sublist.map _ ?_)
    exact (List.sublist_append_left _ _).trans (List.sublist_append_left _ _)
  have hq : (found.msgsOut.queued.map (·.addr)).Nodup := by
    refine hnd.sublist (List.Sublist.map _ ?_)
    exact (List.sublist_append_right _ _).trans (List.sublist_append_left _ _)
  obtain ⟨hfly, hqueue⟩ := resetInflightOutLoop_lists found.msgsOut.inflight []
    (ctx.entering found).msgsOut.restart rfl hin
  obtain ⟨k, h1, -⟩ := resetQueuedLoop_inTurn found.msgsOut.queued
    { ctx.entering found with
      msgsOut := resetInflightOutLoop found.msgsOut.inflight (ctx.entering found).msgsOut.restart }
    hqueue (by
      show ((resetInflightOutLoop _ _).queued.map _).Nodup
      rw [hqueue]
      exact hq) h
  exact ⟨k, h1.trans (congrArg (· ++ _) hfly)⟩

end HandOver

end AdaptiveMqtt.Db
