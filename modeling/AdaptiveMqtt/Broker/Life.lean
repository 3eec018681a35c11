import AdaptiveMqtt.Broker.Session
import AdaptiveMqtt.Db.Reset

/-!
# The life of a client

A client over its connections. While it is connected or away its messages see `Traffic`. A
new connection takes over the lists of the old one, the access rights are checked again, and
the end of `connect__on_authorised` makes the client active and writes what is in flight.
-/

namespace AdaptiveMqtt.Broker

open Db

/-- What happens to a client. `takeOver` is a new connection with the client as it is before
`connect__on_authorised` hands over the messages. -/
inductive Life where
  | traffic (t : Traffic)
  | takeOver (fresh : Context)
  | checkAcl
  | connectDone (connectAck : UInt8)

def publishesConnect (env : Env) (connectAck : UInt8) (m : Machine) : List ClientMsg :=
  let max := m.db.config.maxKeepalive
  let refused : Bool := max ≠ 0 ∧ (m.ctx.keepalive > max ∨ m.ctx.keepalive = 0)
  let m := if refused then { m with ctx := { m.ctx with keepalive := max } } else m
  if refused ∧ m.ctx.protocol ≠ .mqtt5 then []
  else
    let r := sendCommand env.net (.connack connectAck 0)
      { m with ctx := m.ctx.setState .active }
    if r.1 ≠ Rc.success then [] else publishesAll env.net (messageWriteQueuedOut r.2).2

namespace Life

def exec (env : Env) (m : Machine) : Life → Machine
  | traffic t => t.exec env.net m
  | takeOver fresh => (handOver m.ctx ⟨m.db, fresh⟩).1
  | checkAcl => connectionCheckAcl env m
  | connectDone connectAck => (Broker.connectDone env connectAck m).2

/-- What has been published in the connection, given what had been before. -/
def published (env : Env) (m : Machine) (sent : List ClientMsg) : Life → List ClientMsg
  | traffic t => sent ++ t.publishes env.net m
  | takeOver _ => []
  | checkAcl => sent
  | connectDone connectAck => sent ++ publishesConnect env connectAck m

/-- Between two events time goes on and the client is not made active, a new connection is
in state `mosq_cs_new` and has no messages, and CONNECT was read from a socket. -/
def Sane (m : Machine) : Life → Prop
  | traffic (.between db ctx) => db.clock = m.db.clock ∧ m.db.tick ≤ db.tick ∧
      (ctx.state = .active → m.ctx.state = .active)
  | traffic _ => True
  | takeOver fresh => fresh.state = .new ∧ fresh.msgsOut.all = []
  | checkAcl => True
  | connectDone _ => m.ctx.sock ≠ none

end Life

/-- One event of a life. -/
structure Moment where
  env : Env
  before : Machine
  event : Life

/-- What was published since the last take-over. -/
def sentIn (past : List Moment) : List ClientMsg :=
  past.foldl (fun sent s => s.event.published s.env s.before sent) []

@[simp] theorem sentIn_append (past : List Moment) (s : Moment) :
    sentIn (past ++ [s]) = s.event.published s.env s.before (sentIn past) := by
  simp [sentIn]

/-- The events that lead from `m₀` to a machine, each allowed by `ok` after those before. -/
inductive Lives (ok : List Moment → Moment → Prop) (m₀ : Machine) :
    List Moment → Machine → Prop where
  | start : Lives ok m₀ [] m₀
  | next {past : List Moment} {m : Machine} (h : Lives ok m₀ past m) (env : Env) (e : Life)
    (hok : ok past ⟨env, m, e⟩) : Lives ok m₀ (past ++ [⟨env, m, e⟩]) (e.exec env m)

/-- What an event keeps, a life keeps. -/
theorem Lives.keep {ok : List Moment → Moment → Prop} {m₀ m : Machine} {past : List Moment}
    {I : List Moment → Machine → Prop} (h : Lives ok m₀ past m) (h₀ : I [] m₀)
    (hstep : ∀ past s, ok past s → I past s.before →
      I (past ++ [s]) (s.event.exec s.env s.before)) : I past m := by
  induction h with
  | start => exact h₀
  | next _ env e hok ih => exact hstep _ ⟨env, _, e⟩ hok ih

/-- The machine after some events. -/
def Life.run (env : Env) (m : Machine) (l : List Life) : Machine :=
  l.foldl (fun m e => e.exec env m) m

/-- Each of the events is allowed when it is its turn. -/
def Life.AllOk (ok : List Moment → Moment → Prop) (env : Env) :
    List Moment → Machine → List Life → Prop
  | _, _, [] => True
  | past, m, e :: l => ok past ⟨env, m, e⟩ ∧ AllOk ok env (past ++ [⟨env, m, e⟩]) (e.exec env m) l

/-- The events with the machines before them. -/
def Life.moments (env : Env) : Machine → List Life → List Moment
  | _, [] => []
  | m, e :: l => ⟨env, m, e⟩ :: moments env (e.exec env m) l

theorem lives_run {ok : List Moment → Moment → Prop} {env : Env} {m₀ m : Machine} {l : List Life}
    {past : List Moment} (h : Lives ok m₀ past m) (hl : Life.AllOk ok env past m l) :
    Lives ok m₀ (past ++ Life.moments env m l) (Life.run env m l) := by
  induction l generalizing m past with
  | nil =>
    rw [Life.moments, List.append_nil]
    exact h
  | cons e l ih =>
    have hrun := ih (h.next env e hl.1) hl.2
    rwa [List.append_assoc] at hrun

theorem handOverSession_client {b : State} {found c : CtxId} {foundCtx ctx : Context}
    (hfound : b.contexts.get found = some foundCtx) (hc : b.contexts.get c = some ctx)
    (env : Env) :
    let m := (Life.takeOver ctx).exec env ⟨b.db, foundCtx⟩
    (handOverSession found c b).db = m.db ∧
      (handOverSession found c b).contexts.get c = some m.ctx := by
  intro m
  unfold handOverSession
  rw [hfound, hc]
  simp only
  split
  · exact ⟨rfl, Lib.Heap.get_set_self _ _ _⟩
  · rename_i hno
    have hm : m = ⟨b.db, ctx⟩ := by
      show (handOver foundCtx ⟨b.db, ctx⟩).1 = _
      unfold handOver
      rw [if_neg hno]
    rw [hm]
    exact ⟨rfl, hc⟩

/-! ## The check of the access rights -/

section CheckAcl

variable (env : Env)

theorem checkAclLoop_spec (dir : Direction) (ctx : Context) (l : List ClientMsg) (m : Machine) :
    (checkAclLoop env dir ctx l m).1.Sublist l ∧ Around m (checkAclLoop env dir ctx l m).2 ∧
      ∀ d, (checkAclLoop env dir ctx l m).2.ctx.msgs d = m.ctx.msgs d := by
  induction l generalizing m with
  | nil => exact ⟨List.Sublist.refl _, .refl m, fun _ => rfl⟩
  | cons msg rest ih =>
    unfold checkAclLoop
    simp only
    generalize (if msg.direction = .mdOut then Access.read else .write) = access
    split
    · obtain ⟨hsub, ha, hmsgs⟩ := ih (dropRef dir msg m)
      obtain ⟨hclock, htick⟩ := refDec_clock msg.store.addr m.db
      have hdrop : Around m (dropRef dir msg m) := by
        refine ⟨hclock, htick.ge, (refDec_nextMsg _ _).ge, ?_⟩
        unfold dropRef
        simp only
        split <;> rfl
      refine ⟨hsub.cons msg, hdrop.trans ha, fun d => (hmsgs d).trans ?_⟩
      unfold dropRef
      simp only
      split
      · cases d <;> rfl
      · rfl
    · obtain ⟨hsub, ha, hmsgs⟩ := ih m
      exact ⟨hsub.cons_cons msg, ha, hmsgs⟩

/-- The check only drops messages in flight and in the queue. -/
theorem connectionCheckAcl_spec (m : Machine) :
    (connectionCheckAcl env m).ctx.msgsOut.inflight.Sublist m.ctx.msgsOut.inflight ∧
      (connectionCheckAcl env m).ctx.msgsOut.queued.Sublist m.ctx.msgsOut.queued ∧
      (connectionCheckAcl env m).ctx.msgsOut.storage = m.ctx.msgsOut.storage ∧
      Around m (connectionCheckAcl env m) := by
  -- one direction: the two lists, one after the other
  have hone : ∀ (dir : Direction) (m : Machine),
      let r := checkAclLoop env dir m.ctx (m.ctx.msgs dir).inflight m
      let m₁ := r.2.onMsgs dir fun md => { md with inflight := r.1 }
      let r₁ := checkAclLoop env dir m₁.ctx (m₁.ctx.msgs dir).queued m₁
      let m₂ := r₁.2.onMsgs dir fun md => { md with queued := r₁.1 }
      Around m m₂ ∧ (dir = .mdIn → m₂.ctx.msgsOut = m.ctx.msgsOut) ∧
        (dir = .mdOut → m₂.ctx.msgsOut.inflight.Sublist m.ctx.msgsOut.inflight ∧
          m₂.ctx.msgsOut.queued.Sublist m.ctx.msgsOut.queued ∧
          m₂.ctx.msgsOut.storage = m.ctx.msgsOut.storage) := by
    intro dir m r m₁ r₁ m₂
    obtain ⟨hsub, ha, hmsgs⟩ := checkAclLoop_spec env dir m.ctx (m.ctx.msgs dir).inflight m
    obtain ⟨hsub₁, ha₁, hmsgs₁⟩ := checkAclLoop_spec env dir m₁.ctx (m₁.ctx.msgs dir).queued m₁
    have hset : ∀ (m : Machine) (f : MsgData → MsgData), Around m (m.onMsgs dir f) := by
      intro m f
      cases dir <;> exact ⟨rfl, le_rfl, le_rfl, rfl⟩
    refine ⟨((ha.trans (hset _ _)).trans ha₁).trans (hset _ _), ?_, ?_⟩
    · rintro rfl
      exact (hmsgs₁ .mdOut).trans (hmsgs .mdOut)
    · rintro rfl
      have hq : m₁.ctx.msgsOut = { m.ctx.msgsOut with inflight := r.1 } :=
        congrArg (fun md : MsgData => { md with inflight := r.1 }) (hmsgs .mdOut)
      have hmd : m₂.ctx.msgsOut = { m.ctx.msgsOut with inflight := r.1, queued := r₁.1 } :=
        congrArg (fun md : MsgData => { md with queued := r₁.1 }) ((hmsgs₁ .mdOut).trans hq)
      rw [hmd]
      refine ⟨hsub, ?_, rfl⟩
      have hqueued : (m₁.ctx.msgs .mdOut).queued = m.ctx.msgsOut.queued := by
        show m₁.ctx.msgsOut.queued = _
        rw [hq]
      exact hqueued ▸ hsub₁
  obtain ⟨ha, hout, -⟩ := hone .mdIn m
  obtain ⟨ha', -, hlists⟩ := hone .mdOut _
  obtain ⟨hin, hqueued, hstorage⟩ := hlists rfl
  rw [hout rfl] at hin hqueued hstorage
  exact ⟨hin, hqueued, hstorage, ha.trans ha'⟩

end CheckAcl

/-! ## The end of `connect__on_authorised` -/

section ConnectDone

variable {env : Env} {connectAck : UInt8} {m : Machine}

/-- Nothing changes for the messages but the state of the client. -/
structure Renewed (m m' : Machine) : Prop where
  clock : m'.db.clock = m.db.clock
  tick : m.db.tick ≤ m'.db.tick
  nextMsg : m.db.nextMsg ≤ m'.db.nextMsg
  msgsOut : m'.ctx.msgsOut = m.ctx.msgsOut

theorem Renewed.based {m' : Machine} (h : Renewed m m') (hb : Based m) : Based m' :=
  hb.of_keys h.clock h.tick h.nextMsg (h.msgsOut ▸ List.Subperm.refl _)
    (h.msgsOut ▸ List.Sublist.refl _)

/-- The client is refused, or the writer runs for a client that was renewed. -/
theorem connectDone_cases (env : Env) (connectAck : UInt8) (m : Machine) :
    (Broker.connectDone env connectAck m).1 ≠ Rc.success ∧
        publishesConnect env connectAck m = [] ∧
        Renewed m (Broker.connectDone env connectAck m).2 ∨
      ∃ m₁, Renewed m m₁ ∧ m₁.ctx.sock = m.ctx.sock ∧
        Broker.connectDone env connectAck m =
          messageWriteInflightOutAll env.net (messageWriteQueuedOut m₁).2 ∧
        publishesConnect env connectAck m = publishesAll env.net (messageWriteQueuedOut m₁).2 := by
  have hqueued : ∀ m : Machine, (messageWriteQueuedOut m).1 = Rc.success := by
    intro m
    unfold messageWriteQueuedOut
    split <;> rfl
  have hstate : ∀ ctx : Context, (ctx.setState .active).msgsOut = ctx.msgsOut ∧
      (ctx.setState .active).sock = ctx.sock := by
    intro ctx
    unfold Context.setState
    split <;> exact ⟨rfl, rfl⟩
  unfold Broker.connectDone publishesConnect
  simp only
  generalize decide (m.db.config.maxKeepalive ≠ 0 ∧
    (m.ctx.keepalive > m.db.config.maxKeepalive ∨ m.ctx.keepalive = 0)) = refused
  generalize hkept : (if refused = true then
    { m with ctx := { m.ctx with keepalive := m.db.config.maxKeepalive } } else m) = kept
  have hsame : kept.db = m.db ∧ kept.ctx.msgsOut = m.ctx.msgsOut ∧ kept.ctx.sock = m.ctx.sock := by
    rw [← hkept]
    split <;> exact ⟨rfl, rfl, rfl⟩
  obtain ⟨hdb, hmd, hsock⟩ := hsame
  by_cases hno : refused = true ∧ kept.ctx.protocol ≠ .mqtt5
  · rw [if_pos hno, if_pos hno]
    have hinval : Rc.inval ≠ Rc.success := by decide
    refine .inl ⟨hinval, rfl, ?_⟩
    exact ⟨hdb ▸ rfl, hdb ▸ le_rfl, hdb ▸ le_rfl, hmd⟩
  · rw [if_neg hno, if_neg hno]
    have hnew : Renewed m (sendCommand env.net (.connack connectAck 0)
        { kept with ctx := kept.ctx.setState .active }).2 :=
      ⟨hdb ▸ rfl, hdb ▸ le_rfl, hdb ▸ le_rfl, (hstate kept.ctx).1.trans hmd⟩
    by_cases hrc : (sendCommand env.net (.connack connectAck 0)
        { kept with ctx := kept.ctx.setState .active }).1 = Rc.success
    · rw [if_neg (not_not.mpr hrc), if_neg (not_not.mpr hrc), if_neg (not_not.mpr (hqueued _))]
      exact .inr ⟨_, hnew, (hstate kept.ctx).2.trans hsock, rfl, rfl⟩
    · rw [if_pos hrc, if_pos hrc]
      exact .inl ⟨hrc, rfl, hnew⟩

theorem acts_connectDone (hb : Based m) (T : Discipline) :
    ∃ m₁, Renewed m m₁ ∧ Acts env.net T m₁ (publishesConnect env connectAck m)
      (Broker.connectDone env connectAck m).2 := by
  rcases connectDone_cases env connectAck m with ⟨-, hpub, hnew⟩ | ⟨m₁, hnew, -, hdone, hpub⟩
  · exact ⟨_, hnew, hpub ▸ .refl _⟩
  · refine ⟨m₁, hnew, ?_⟩
    have hacts := (acts_messageWriteQueuedOut (hnew.based hb) env.net T).1.next (Act.all _)
    rw [hdone, hpub]
    exact hacts

/-- **A completed connect has treated everything in flight**: each message waits for the
client. -/
theorem connectDone_idle (hb : Based m) (hsock : m.ctx.sock ≠ none)
    (hrc : (Broker.connectDone env connectAck m).1 = Rc.success)
    (hactive : (Broker.connectDone env connectAck m).2.ctx.state = .active) :
    ∀ a ∈ (Broker.connectDone env connectAck m).2.ctx.msgsOut.inflight, a.Idle := by
  rcases connectDone_cases env connectAck m with ⟨hbad, -, -⟩ | ⟨m₁, hnew, hsock', hdone, -⟩
  · exact absurd hrc hbad
  · rw [hdone] at hrc hactive ⊢
    obtain ⟨-, -, -, hstate⟩ := around_messageWriteInflightOutAll env.net
      (messageWriteQueuedOut m₁).2
    have hb₂ : Based (messageWriteQueuedOut m₁).2 := based_acts (hnew.based hb)
      (acts_messageWriteQueuedOut (hnew.based hb) env.net .free).1
    have hsock₂ : (messageWriteQueuedOut m₁).2.ctx.sock ≠ none := by
      have hq : (messageWriteQueuedOut m₁).2.ctx.sock = m₁.ctx.sock := by
        unfold messageWriteQueuedOut
        split <;> rfl
      rwa [hq, hsock']
    rw [hstate] at hactive
    have hwrite : messageWriteInflightOutAll env.net (messageWriteQueuedOut m₁).2 =
        writeInflightLoop env.net (messageWriteQueuedOut m₁).2.ctx.msgsOut.inflight
          (messageWriteQueuedOut m₁).2 := by
      unfold messageWriteInflightOutAll
      rw [if_neg]
      exact fun h => h.elim (fun h => h hactive) hsock₂
    rw [hwrite] at hrc ⊢
    obtain ⟨pre, done, rest, hres, hidle, -, -, hsuccess⟩ := @loop_spec env.net []
      (messageWriteQueuedOut m₁).2 _ _ (fun _ h => h) (List.nil_append _).symm hb₂.sound.nodup_inflight
      (List.forall_mem_nil _)
    rw [hres, hsuccess hrc, List.append_nil]
    exact hidle

end ConnectDone

/-! ## Addresses and stamps -/

section Based

variable {env : Env} {m : Machine}

theorem takeOver_keys {fresh : Context} (hempty : fresh.msgsOut.all = []) :
    ((handOver m.ctx ⟨m.db, fresh⟩).1.ctx.msgsOut.all.map ClientMsg.key).Subperm
      (m.ctx.msgsOut.all.map ClientMsg.key) := by
  rcases handOver_msgsOut m.ctx ⟨m.db, fresh⟩ with he | he
  · rw [he, hempty]
    exact List.nil_subperm
  · rw [he]
    exact (reconnectResetOutgoing_keys _ _ _).1.subperm

theorem based_takeOver {fresh : Context} (hempty : fresh.msgsOut.all = []) (hb : Based m) :
    Based (handOver m.ctx ⟨m.db, fresh⟩).1 := by
  obtain ⟨hclock, htick, hnext, -⟩ := around_handOver m.ctx ⟨m.db, fresh⟩
  refine hb.of_keys hclock htick hnext (takeOver_keys hempty) ?_
  rcases handOver_msgsOut m.ctx ⟨m.db, fresh⟩ with he | he
  · rw [he, (List.append_eq_nil_iff.mp hempty).2]
    exact List.nil_sublist _
  · rw [he, (reconnectResetOutgoing_keys _ _ _).2]

theorem based_checkAcl (hb : Based m) : Based (connectionCheckAcl env m) := by
  obtain ⟨hin, hqueued, hstorage, ha⟩ := connectionCheckAcl_spec env m
  have hsub : (connectionCheckAcl env m).ctx.msgsOut.storage.Sublist m.ctx.msgsOut.storage :=
    hstorage ▸ List.Sublist.refl _
  refine hb.of_keys ha.clock ha.tick ha.nextMsg (List.Sublist.map _ ?_).subperm hsub
  exact (hin.append hqueued).append hsub

theorem based_life {e : Life} (hsane : e.Sane m) (hb : Based m) : Based (e.exec env m) := by
  cases e with
  | traffic t =>
    by_cases hbetween : ∃ db ctx, t = .between db ctx
    · obtain ⟨db, ctx, rfl⟩ := hbetween
      exact Renewed.based ⟨hsane.1, hsane.2.1, Nat.le_add_right _ _, rfl⟩ hb
    · exact based_acts hb (acts_exec (T := .free) trivial hb env.net (t.fair_free m)
        fun db ctx h => hbetween ⟨db, ctx, h⟩)
  | takeOver fresh => exact based_takeOver hsane.2 hb
  | checkAcl => exact based_checkAcl hb
  | connectDone connectAck =>
    obtain ⟨m₁, hnew, hacts⟩ := @acts_connectDone env connectAck m hb .free
    exact based_acts (hnew.based hb) hacts

end Based

end AdaptiveMqtt.Broker
