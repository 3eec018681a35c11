import AdaptiveMqtt.Broker.Life

/-!
# What is in flight for an active client

Over the whole life of a client: the messages in flight that were sent stand before those
that were not, so that the fast writer does what the full one does, and a message that is
passed by was sent.
-/

namespace AdaptiveMqtt.Broker

open Db

/-! ## Sent before unsent -/

/-- The PUBLISH of a message was sent in this connection, or its PUBREL. -/
def Answerable (sent : List ClientMsg) (a : ClientMsg) : Prop :=
  a.addr ∈ sent.map (·.addr) ∨ a.state = .waitForPubcomp

/-- Of the messages in flight for an active client those that were sent come first. -/
structure Sorted (sent : List ClientMsg) (m : Machine) : Prop where
  based : Based m
  traced : Traced sent m.db.nextMsg m.ctx.msgsOut
  split : m.ctx.state = .active → Split m.ctx.msgsOut.inflight

section Sorted

variable {env : Env} {net : Net} {T : Discipline} {m m' : Machine} {sent l tr : List ClientMsg}

theorem Sorted.marks (h : Sorted tr m) (hT : ∀ a, T.marks a → Answerable sent a)
    (hsent : sent ⊆ tr) : ∀ a ∈ m.ctx.msgsOut.inflight, T.marks a →
      MsgState.isPublish a.state = false := by
  intro a hmem hmark
  rcases hT a hmark with hin | hs
  · exact h.traced.marked a hmem (List.map_subset _ hsent hin)
  · rw [hs]
    rfl

theorem sorted_act (hT : ∀ a, T.marks a → Answerable sent a) (hsent : sent ⊆ tr)
    (ha : Act net T m l m') (h : Sorted tr m) : Sorted (tr ++ l) m' := by
  refine ⟨based_act h.based ha, traced_act h.based.sound ha h.traced, fun hactive => ?_⟩
  rw [ha.around.state] at hactive
  exact split_act (h.marks hT hsent) h.based.sound ha (h.split hactive)

/-- What an act keeps of a sorted machine, an event keeps. -/
theorem Sorted.keep {I : List ClientMsg → Machine → Prop}
    (hT : ∀ a, T.marks a → Answerable sent a) (ha : Acts net T m l m')
    (hact : ∀ {tr m l m'}, sent ⊆ tr → Sorted tr m → Act net T m l m' → I tr m → I (tr ++ l) m')
    (h : Sorted sent m) (hi : I sent m) : Sorted (sent ++ l) m' ∧ I (sent ++ l) m' := by
  have hkeep := ha.keep (I := fun tr m => sent ⊆ tr ∧ Sorted tr m ∧ I tr m)
    (fun ha h => ⟨List.subset_append_of_subset_left _ h.1, sorted_act hT h.1 ha h.2.1,
      hact h.1 h.2.1 ha h.2.2⟩) sent ⟨List.Subset.refl _, h, hi⟩
  exact hkeep.2

theorem Renewed.traced (hnew : Renewed m m') (h : Traced sent m.db.nextMsg m.ctx.msgsOut) :
    Traced sent m'.db.nextMsg m'.ctx.msgsOut := by
  rw [hnew.msgsOut]
  exact ⟨fun a ha => (h.past a ha).trans_le hnew.nextMsg, h.queued, h.storage, h.marked⟩

theorem traced_nil (m : Machine) : Traced [] m.db.nextMsg m.ctx.msgsOut :=
  ⟨List.forall_mem_nil _, fun _ _ => List.not_mem_nil, fun _ _ => List.not_mem_nil,
    fun _ _ hmem => absurd hmem List.not_mem_nil⟩

theorem sorted_connectDone {connectAck : UInt8} (hsock : m.ctx.sock ≠ none)
    (hrc : (connectDone env connectAck m).1 = Rc.success) (h : Sorted sent m) :
    Sorted (sent ++ publishesConnect env connectAck m) (connectDone env connectAck m).2 := by
  obtain ⟨m₁, hnew, hacts⟩ := @acts_connectDone env connectAck m h.based .free
  obtain ⟨hb, htraced⟩ := hacts.keep
    (I := fun tr m => Based m ∧ Traced tr m.db.nextMsg m.ctx.msgsOut)
    (fun ha h => ⟨based_act h.1 ha, traced_act h.1.sound ha h.2⟩) sent
    ⟨hnew.based h.based, hnew.traced h.traced⟩
  refine ⟨hb, htraced, fun hactive => ?_⟩
  exact ⟨_, [], (List.append_nil _).symm, connectDone_idle h.based hsock hrc hactive,
    List.forall_mem_nil _⟩

theorem sorted_takeOver {fresh : Context} (hnew : fresh.state = .new)
    (hempty : fresh.msgsOut.all = []) (h : Sorted sent m) :
    Sorted [] (handOver m.ctx ⟨m.db, fresh⟩).1 := by
  refine ⟨based_takeOver hempty h.based, traced_nil _, fun hactive => ?_⟩
  have hstate := (around_handOver m.ctx ⟨m.db, fresh⟩).state.symm.trans hactive
  exact absurd (hnew.symm.trans hstate) (by decide)

theorem sorted_checkAcl (h : Sorted sent m) : Sorted sent (connectionCheckAcl env m) := by
  obtain ⟨hin, hqueued, hstorage, ha⟩ := connectionCheckAcl_spec env m
  refine ⟨based_checkAcl h.based, ?_, fun hactive => ?_⟩
  · exact ⟨fun a hmem => (h.traced.past a hmem).trans_le ha.nextMsg,
      fun a hmem => h.traced.queued a (hqueued.subset hmem),
      fun a hmem => h.traced.storage a (hstorage ▸ hmem),
      fun a hmem => h.traced.marked a (hin.subset hmem)⟩
  · exact (h.split (ha.state.symm.trans hactive)).sublist hin

theorem sorted_between {db : MosquittoDb} {ctx : Context}
    (hsane : (Life.traffic (.between db ctx)).Sane m) (h : Sorted sent m) :
    Sorted sent ((Traffic.between db ctx).exec net m) := by
  have hnew : Renewed m ((Traffic.between db ctx).exec net m) :=
    ⟨hsane.1, hsane.2.1, Nat.le_add_right _ _, rfl⟩
  exact ⟨hnew.based h.based, hnew.traced h.traced, fun hactive => h.split (hsane.2.2 hactive)⟩

theorem sorted_start {m₀ : Machine} (hclear : Clear m₀)
    (hclock : ∀ i j, i ≤ j → (m₀.db.clock i).sec ≤ (m₀.db.clock j).sec) : Sorted [] m₀ := by
  have hin : m₀.ctx.msgsOut.inflight = [] :=
    (List.append_eq_nil_iff.mp (List.append_eq_nil_iff.mp hclear.1).1).1
  refine ⟨based_start hclear.1 hclock, traced_nil _, fun _ => ?_⟩
  exact ⟨[], [], hin, List.forall_mem_nil _, List.forall_mem_nil _⟩

end Sorted

/-! ## The fast writer and the full one -/

/-- No message expires, and a PUBREC is of a message that was sent in this connection. -/
def answering (sent : List ClientMsg) : Discipline :=
  { places := fun a => a.store.messageExpiryTime = 0
    marks := Answerable sent
    overtakes := fun _ => True }

/-- Acknowledgements are of messages that were sent in this connection, and
`connect__on_authorised` returns success. -/
def Completing (past : List Moment) (s : Moment) : Prop :=
  s.event.Sane s.before ∧ match s.event with
    | .traffic t => t.Fair (answering (sentIn past)) s.before
    | .takeOver _ => True
    | .checkAcl => True
    | .connectDone connectAck => (connectDone s.env connectAck s.before).1 = Rc.success

section Completing

variable {env : Env} {m m' : Machine} {past : List Moment} {e : Life}

/-- No message of the client expires. -/
def Lasting (m : Machine) : Prop := ∀ a ∈ m.ctx.msgsOut.all, a.store.messageExpiryTime = 0

theorem lasting_act {net : Net} {sent l : List ClientMsg} (hs : Sound .mdOut m)
    (ha : Act net (answering sent) m l m') (h : Lasting m) : Lasting m' :=
  stores_act (P := (·.messageExpiryTime = 0)) (fun _ h => h) hs ha h

theorem completing_step (hok : Completing past ⟨env, m, e⟩) (h : Sorted (sentIn past) m)
    (hlast : Lasting m) :
    Sorted (e.published env m (sentIn past)) (e.exec env m) ∧ Lasting (e.exec env m) := by
  obtain ⟨hsane, hok⟩ := hok
  cases e with
  | traffic t =>
    by_cases hbetween : ∃ db ctx, t = .between db ctx
    · obtain ⟨db, ctx, rfl⟩ := hbetween
      have hsorted : Sorted (sentIn past ++ []) ((Traffic.between db ctx).exec env.net m) := by
        rw [List.append_nil]
        exact sorted_between hsane h
      exact ⟨hsorted, hlast⟩
    · exact Sorted.keep (I := fun _ => Lasting) (fun _ h => h)
        (acts_exec trivial h.based env.net hok fun db ctx he => hbetween ⟨db, ctx, he⟩)
        (fun _ hs ha hl => lasting_act hs.based.sound ha hl) h hlast
  | takeOver fresh =>
    exact ⟨sorted_takeOver hsane.1 hsane.2 h, store_of_keys (P := (·.messageExpiryTime = 0))
      (takeOver_keys hsane.2).subset hlast⟩
  | checkAcl =>
    obtain ⟨hin, hqueued, hstorage, -⟩ := connectionCheckAcl_spec env m
    refine ⟨sorted_checkAcl h, fun a hmem => hlast a ?_⟩
    rcases List.mem_append.mp hmem with hmem | hmem
    · exact List.mem_append_left _ ((hin.append hqueued).subset hmem)
    · exact List.mem_append_right _ (hstorage ▸ hmem)
  | connectDone connectAck =>
    obtain ⟨m₁, hnew, hacts⟩ := @acts_connectDone env connectAck m h.based (answering (sentIn past))
    have hkeep := hacts.keep (I := fun _ m => Based m ∧ Lasting m)
      (fun ha h => ⟨based_act h.1 ha, lasting_act h.1.sound ha h.2⟩) []
      ⟨hnew.based h.based, fun a ha => hlast a (hnew.msgsOut ▸ ha)⟩
    exact ⟨sorted_connectDone hsane hok h, hkeep.2⟩

end Completing

/-- **The fast writer agrees with the full one** for any network: they leave the same
machine, and publish the same messages in the same order. -/
theorem fast_writer_agrees {m₀ m : Machine} {past : List Moment} (hclear : Clear m₀)
    (hclock : ∀ i j, i ≤ j → (m₀.db.clock i).sec ≤ (m₀.db.clock j).sec)
    (h : Lives Completing m₀ past m) (net : Net) :
    messageWriteInflightOutLatest net m = messageWriteInflightOutAll net m ∧
      publishesLatest net m = publishesAll net m := by
  have hnone : Lasting m₀ := by
    intro a ha
    rw [hclear.1] at ha
    exact nomatch ha
  obtain ⟨hsorted, hlast⟩ : Sorted (sentIn past) m ∧ Lasting m :=
    h.keep (I := fun past m => Sorted (sentIn past) m ∧ Lasting m)
      ⟨sorted_start hclear hclock, hnone⟩
      fun past s hok hs => sentIn_append past s ▸ completing_step hok hs.1 hs.2
  by_cases hactive : m.ctx.state = .active
  · refine writers_agree net m (hsorted.split hactive) fun a ha => hlast a ?_
    exact List.mem_append_left _ (List.mem_append_left _ ha)
  · unfold messageWriteInflightOutLatest messageWriteInflightOutAll publishesLatest publishesAll
    rw [if_pos (.inl hactive), if_pos (.inl hactive), if_pos (.inl hactive), if_pos (.inl hactive)]
    exact ⟨rfl, rfl⟩

/-- A network and plugins that let everything through. -/
def Env.letting : Env := ⟨Net.taking, fun _ _ _ _ _ _ => Rc.success, fun _ => Rc.success⟩

/-- A client that is away, with a window of one and QoS 0 messages queued for it. -/
def awayClient : Machine :=
  { db := { Machine.idle.db with config := { Config.init with queueQos0Messages := true } }
    ctx := { Machine.idle.ctx with
      sock := none, state := .disconnected, cleanStart := false, sessionExpiryInterval := 100
      msgsOut := MsgData.empty 1 } }

def backClient : Context :=
  { Context.init Config.init (some 4) with
    id := some (ascii "c"), protocol := .mqtt311, cleanStart := false, msgsOut := MsgData.empty 1 }

/-- Insert the message of store `s`. -/
def Life.insertByte (s : Nat) (qos : Qos) : Life :=
  .traffic (.insert (UInt16.ofNat s) qos false (MsgStore.byte s) [] true)

def comesBack (l : List (Nat × Qos)) : List Life :=
  l.map (fun s => .insertByte s.1 s.2) ++ [.takeOver backClient, .checkAcl, .connectDone 1]

/-- A client comes back to two messages. -/
theorem fast_writer_agrees_back :
    let m := Life.run .letting awayClient (comesBack [(1, .q1), (2, .q1)])
    Clear awayClient ∧ m.ctx.msgsOut.inflight.length = 1 ∧
      messageWriteInflightOutLatest Net.taking m = messageWriteInflightOutAll Net.taking m ∧
        publishesLatest Net.taking m = publishesAll Net.taking m := by
  have h₀ : Clear awayClient := ⟨rfl, rfl, rfl⟩
  have hinsert : ∀ past m s qos, Completing past ⟨.letting, m, .insertByte s qos⟩ :=
    fun _ _ _ _ => ⟨trivial, fun _ _ _ _ _ _ _ _ hnew =>
      congrArg MsgStore.messageExpiryTime hnew.store⟩
  have hrun := lives_run (Lives.start : Lives Completing awayClient _ _)
    (show Life.AllOk Completing .letting _ _ (comesBack [(1, .q1), (2, .q1)]) from
      ⟨hinsert _ _ 1 .q1, hinsert _ _ 2 .q1, ⟨⟨rfl, rfl⟩, trivial⟩, ⟨trivial, trivial⟩,
        ⟨Option.some_ne_none 4, rfl⟩, trivial⟩)
  exact ⟨h₀, rfl, fast_writer_agrees h₀ (fun _ _ _ => le_rfl) hrun Net.taking⟩

/-! ## Messages that are passed by -/

def sentOnly : Discipline :=
  { places := fun _ => True, marks := fun a => a.dup = true, overtakes := fun _ => True }

/-- PUBRECs are of messages that were sent, and where the messages are handed over the queue
is in turn: none is ready for flight behind one that is not. -/
def InOrder (_ : List Moment) (s : Moment) : Prop :=
  s.event.Sane s.before ∧ match s.event with
    | .traffic t => t.Fair sentOnly s.before
    | .takeOver fresh => fresh.cleanStart = false → s.before.ctx.sessionExpiryInterval > 0 →
        HandedInTurn s.before.db.config s.before.ctx fresh
    | .checkAcl => True
    | .connectDone _ => True

section Settled

variable {env : Env} {m : Machine}

theorem settled_takeOver {fresh : Context} (hb : Based m) (hempty : fresh.msgsOut.all = [])
    (hturn : fresh.cleanStart = false → m.ctx.sessionExpiryInterval > 0 →
      HandedInTurn m.db.config m.ctx fresh) (h : ∀ a ∈ m.ctx.msgsOut.inflight, a.Settled) :
    ∀ a ∈ (handOver m.ctx ⟨m.db, fresh⟩).1.ctx.msgsOut.inflight, a.Settled := by
  have hfresh : ∀ a ∈ fresh.msgsOut.inflight, a.Settled := by
    rw [(List.append_eq_nil_iff.mp (List.append_eq_nil_iff.mp hempty).1).1]
    exact List.forall_mem_nil _
  by_cases hcarry : fresh.cleanStart = false ∧ m.ctx.sessionExpiryInterval > 0
  · rcases handOver_msgsOut m.ctx ⟨m.db, fresh⟩ with he | he
    · rw [he]
      exact hfresh
    · obtain ⟨k, hin⟩ := reconnectResetOutgoing_inTurn hb.sound.nodup (hturn hcarry.1 hcarry.2)
      rw [he, hin]
      intro a ha
      rcases List.mem_append.mp ha with ha | ha
      · obtain ⟨b, hb, rfl⟩ := List.mem_map.mp ha
        exact (h b hb).resend
      · obtain ⟨b, -, rfl⟩ := List.mem_map.mp ha
        exact .inl (publishState_isPublish b.qos)
  · unfold handOver
    rw [if_neg hcarry]
    exact hfresh

theorem settled_life {past : List Moment} {e : Life} (hok : InOrder past ⟨env, m, e⟩)
    (hb : Based m) (h : ∀ a ∈ m.ctx.msgsOut.inflight, a.Settled) :
    ∀ a ∈ (e.exec env m).ctx.msgsOut.inflight, a.Settled := by
  obtain ⟨hsane, hok⟩ := hok
  cases e with
  | traffic t =>
    by_cases hbetween : ∃ db ctx, t = .between db ctx
    · obtain ⟨db, ctx, rfl⟩ := hbetween
      exact h
    · exact settled_acts (fun _ h => h) (acts_exec trivial hb env.net hok
        fun db ctx he => hbetween ⟨db, ctx, he⟩) hb h
  | takeOver fresh => exact settled_takeOver hb hsane.2 hok h
  | checkAcl => exact fun a ha => h a ((connectionCheckAcl_spec env m).1.subset ha)
  | connectDone connectAck =>
    obtain ⟨m₁, hnew, hacts⟩ := @acts_connectDone env connectAck m hb sentOnly
    exact settled_acts (fun _ h => h) hacts (hnew.based hb) (hnew.msgsOut ▸ h)

end Settled

/-- **List and state agree**: no message in flight has the state of one that waits in
another list, and one that the writers pass by was sent. -/
theorem flight_state_agrees {m₀ m : Machine} {past : List Moment} (hclear : Clear m₀)
    (hclock : ∀ i j, i ≤ j → (m₀.db.clock i).sec ≤ (m₀.db.clock j).sec)
    (h : Lives InOrder m₀ past m) :
    ∀ a ∈ m.ctx.msgsOut.inflight, a.state ≠ .invalid ∧ a.state ≠ .queued ∧ a.state ≠ .storage ∧
      (a.Idle → a.dup = true) := by
  have hin : m₀.ctx.msgsOut.inflight = [] :=
    (List.append_eq_nil_iff.mp (List.append_eq_nil_iff.mp hclear.1).1).1
  have hkept : Based m ∧ ∀ a ∈ m.ctx.msgsOut.inflight, a.Settled :=
    h.keep (I := fun _ m => Based m ∧ ∀ a ∈ m.ctx.msgsOut.inflight, a.Settled)
      ⟨based_start hclear.1 hclock, hin ▸ List.forall_mem_nil _⟩
      fun past s hok hi => ⟨based_life hok.1 hi.1, settled_life hok hi.1 hi.2⟩
  intro a ha
  exact (hkept.2 a ha).state

/-- A client comes back to two messages, for the first of which there is room. -/
theorem flight_state_agrees_back :
    let m := Life.run .letting awayClient (comesBack [(1, .q1), (2, .q1)])
    Clear awayClient ∧ m.ctx.state = .active ∧ m.ctx.msgsOut.inflight.length = 1 ∧
      ∀ a ∈ m.ctx.msgsOut.inflight, a.state ≠ .invalid ∧ a.state ≠ .queued ∧ a.state ≠ .storage ∧
        (a.Idle → a.dup = true) := by
  have h₀ : Clear awayClient := ⟨rfl, rfl, rfl⟩
  have hturn : ∀ l : List Bool, l = [true, false] →
      l.Pairwise fun a b => b = true → a = true := by
    rintro l rfl
    decide
  have hrun := lives_run (Lives.start : Lives InOrder awayClient _ _)
    (show Life.AllOk InOrder .letting _ _ (comesBack [(1, .q1), (2, .q1)]) from
      ⟨⟨trivial, fun _ _ _ _ _ _ _ _ _ => trivial⟩, ⟨trivial, fun _ _ _ _ _ _ _ _ _ => trivial⟩,
        ⟨⟨rfl, rfl⟩, fun _ _ => hturn _ rfl⟩,
        ⟨trivial, trivial⟩, ⟨Option.some_ne_none 4, trivial⟩, trivial⟩)
  exact ⟨h₀, rfl, rfl, flight_state_agrees h₀ (fun _ _ _ => le_rfl) hrun⟩

/-- **A message is passed by.** The queue of the client holds two messages at QoS 1, for one
of which there is room, and then one at QoS 0, for which the second is moved. -/
theorem flight_state_differs :
    Clear awayClient ∧ ¬ ∀ past m, Lives (fun _ s => s.event.Sane s.before) awayClient past m →
      m.ctx.state = .active → ∀ a ∈ m.ctx.msgsOut.inflight,
        a.state ≠ .invalid ∧ a.state ≠ .queued ∧ a.state ≠ .storage := by
  refine ⟨⟨rfl, rfl, rfl⟩, fun hall => ?_⟩
  have hrun := lives_run
    (Lives.start : Lives (fun _ s => s.event.Sane s.before) awayClient _ _)
    (show Life.AllOk _ .letting _ _ (comesBack [(1, .q1), (2, .q1), (3, .q0)]) from
      ⟨trivial, trivial, trivial, ⟨rfl, rfl⟩, trivial, Option.some_ne_none 4, trivial⟩)
  have hstates : (Life.run .letting awayClient
      (comesBack [(1, .q1), (2, .q1), (3, .q0)])).ctx.msgsOut.inflight.map (·.state) =
        [.waitForPuback, .queued] := rfl
  obtain ⟨a, ha, hs⟩ := List.mem_map.mp (hstates ▸ List.mem_cons_of_mem _ List.mem_cons_self :
    MsgState.queued ∈ _)
  exact (hall _ _ hrun rfl a ha).2.1 hs

end AdaptiveMqtt.Broker
