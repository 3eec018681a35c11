import AdaptiveMqtt.Db.Ack

/-!
# What the database functions leave alone

The functions of `database.c` write the lists of a client, its packets, its last mid and what
is written down about it. Everything else of a client (`Context.rest`) they leave alone, with
two exceptions: `db__message_insert` may end slow mode, and a latency sample of
`handle__pubackcomp` changes the transmit policy.
-/

namespace AdaptiveMqtt.Db

/-- The fields of a client that moving and sending messages does not change. -/
def Context.rest (ctx : Context) : Context :=
  { ctx with
    bridge := ctx.bridge.map fun b => { b with lazyReconnect := false }
    isDropping := false, lastMid := 0, sendTime := (0, 0), msgsIn := .empty 0, msgsOut := .empty 0
    out := .empty, journal := [], early := false, replies := [] }

/-- The lists, the packets and the clock position may change. -/
structure Rests (m m' : Machine) : Prop where
  rest : m'.ctx.rest = m.ctx.rest
  config : m'.db.config = m.db.config
  nowS : m'.db.nowS = m.db.nowS
  nowRealS : m'.db.nowRealS = m.db.nowRealS
  clock : m'.db.clock = m.db.clock

theorem Context.of_rest {α : Type} (f : Context → α) (hf : ∀ ctx, f ctx.rest = f ctx)
    {ctx ctx' : Context} (h : ctx'.rest = ctx.rest) : f ctx' = f ctx := by
  rw [← hf ctx', h, hf]

section Rests

variable {net : Net} {m m' m'' : Machine}

theorem Rests.refl (m : Machine) : Rests m m := ⟨rfl, rfl, rfl, rfl, rfl⟩

theorem Rests.trans (h : Rests m m') (h' : Rests m' m'') : Rests m m'' :=
  ⟨h'.rest.trans h.rest, h'.config.trans h.config, h'.nowS.trans h.nowS,
    h'.nowRealS.trans h.nowRealS, h'.clock.trans h.clock⟩

theorem rests_sent (m : Machine) (r : Rc × Out) : Rests m (m.sent r).2 :=
  ⟨rfl, rfl, rfl, rfl, rfl⟩

theorem rests_sendCommand (c : Command) (m : Machine) : Rests m (sendCommand net c m).2 :=
  ⟨rfl, rfl, rfl, rfl, rfl⟩

theorem rests_onMsgs (dir : Direction) (f : MsgData → MsgData) (m : Machine) :
    Rests m (m.onMsgs dir f) := by
  cases dir <;> exact ⟨rfl, rfl, rfl, rfl, rfl⟩

theorem rests_updateInflight (addr : Nat) (f : ClientMsg → ClientMsg) (m : Machine) :
    Rests m (m.updateInflight addr f) := rests_onMsgs .mdOut _ m

theorem rests_refDec (s : StoreId) (m : Machine) : Rests m { m with db := m.db.msgStoreRefDec s } := by
  unfold MosquittoDb.msgStoreRefDec
  split
  · exact .refl m
  · split <;> exact ⟨rfl, rfl, rfl, rfl, rfl⟩

theorem rests_messageRemove (dir : Direction) (item : ClientMsg) (m : Machine) :
    Rests m (m.messageRemove dir item) :=
  (rests_refDec item.store.addr m).trans (rests_onMsgs dir (·.remove item) _)

theorem rests_removeOut (msg : ClientMsg) (e : Event) (m : Machine) :
    Rests m (removeOut msg e m) :=
  (rests_messageRemove .mdOut msg m).trans ⟨rfl, rfl, rfl, rfl, rfl⟩

theorem rests_sendMapped (p : Publish) (m : Machine) : Rests m (sendMapped net p m).2 := by
  have hstamp : Rests m (stampSendTime p.topic m) := by
    unfold stampSendTime
    split
    · exact ⟨rfl, rfl, rfl, rfl, rfl⟩
    · exact .refl m
  unfold sendMapped
  split
  · exact .refl m
  · exact rests_sent m _
  · exact hstamp.trans (rests_sent _ _)

theorem rests_sendPublish (p : Publish) (m : Machine) : Rests m (sendPublish net p m).2 := by
  unfold sendPublish
  split
  · exact .refl m
  · simp only
    split
    · exact rests_sendMapped _ m
    · split
      · exact rests_sendMapped _ m
      · exact .refl m

theorem rests_afterPublish (msg : ClientMsg) (next : Option MsgState) (r : Rc × Machine) :
    Rests r.2 (afterPublish msg next r).2 := by
  unfold afterPublish
  split
  · cases next with
    | none => exact rests_removeOut msg _ r.2
    | some s => exact rests_updateInflight _ _ r.2
  · split
    · exact rests_removeOut msg _ r.2
    · exact .refl r.2

theorem rests_single (msg : ClientMsg) (m : Machine) :
    Rests m (messageWriteInflightOutSingle net msg m).2 := by
  have hpublish : ∀ (p : Publish) (next : Option MsgState),
      Rests m (afterPublish msg next (sendPublish net p m)).2 := fun p next =>
    (rests_sendPublish p m).trans (rests_afterPublish msg next _)
  unfold messageWriteInflightOutSingle
  simp only
  split
  · split
    · exact (rests_onMsgs .mdOut _ m).trans (rests_removeOut msg _ _)
    · exact rests_removeOut msg _ m
  · split
    · exact hpublish _ _
    · exact hpublish _ _
    · exact hpublish _ _
    · split
      · exact (rests_sendCommand _ m).trans (rests_updateInflight _ _ _)
      · exact rests_sendCommand _ m
    · exact .refl m

theorem rests_writeInflightLoop (l : List ClientMsg) (m : Machine) :
    Rests m (writeInflightLoop net l m).2 := by
  induction l generalizing m with
  | nil => exact .refl m
  | cons msg rest ih =>
    unfold writeInflightLoop
    simp only
    split
    · exact rests_single msg m
    · exact (rests_single msg m).trans (ih _)

theorem rests_messageWriteInflightOutLatest (m : Machine) :
    Rests m (messageWriteInflightOutLatest net m).2 := by
  unfold messageWriteInflightOutLatest
  split
  · exact .refl m
  · exact rests_writeInflightLoop _ m

theorem rests_messageWriteInflightOutAll (m : Machine) :
    Rests m (messageWriteInflightOutAll net m).2 := by
  unfold messageWriteInflightOutAll
  split
  · exact .refl m
  · exact rests_writeInflightLoop _ m

theorem rests_messageWriteQueuedOut (m : Machine) : Rests m (messageWriteQueuedOut m).2 := by
  unfold messageWriteQueuedOut
  split
  · exact .refl m
  · exact rests_onMsgs .mdOut _ m

theorem rests_read (m : Machine) : Rests m { m with db := m.db.read.2 } := ⟨rfl, rfl, rfl, rfl, rfl⟩

theorem rests_messageWriteStorageOut (m : Machine) : Rests m (messageWriteStorageOut m).2 := by
  unfold messageWriteStorageOut
  split
  · exact .refl m
  · exact (rests_read m).trans (rests_onMsgs .mdOut _ _)

theorem rests_messageDeleteOutgoing (mid : UInt16) (expectState : MsgState) (qos : Qos)
    (m : Machine) : Rests m (messageDeleteOutgoing net mid expectState qos m).2 := by
  unfold messageDeleteOutgoing
  simp only
  split
  · exact (rests_onMsgs .mdOut _ m).trans (rests_messageWriteInflightOutLatest _)
  · split
    · exact .refl m
    · split
      · exact .refl m
      · exact ((rests_removeOut _ _ m).trans (rests_onMsgs .mdOut _ _)).trans
          (rests_messageWriteInflightOutLatest _)

theorem rests_messageUpdateOutgoing (mid : UInt16) (state : MsgState) (qos : Qos) (m : Machine) :
    Rests m (messageUpdateOutgoing mid state qos m).2 := by
  unfold messageUpdateOutgoing
  split
  · exact .refl m
  · split
    · exact .refl m
    · exact rests_updateInflight _ _ m

theorem rests_handlePubrec (p : AckPacket) (m : Machine) : Rests m (handlePubrec net p m).2 := by
  unfold handlePubrec
  split
  · exact .refl m
  · split
    · exact .refl m
    · simp only
      split
      · split
        · exact rests_messageUpdateOutgoing _ _ _ m
        · exact (rests_messageUpdateOutgoing _ _ _ m).trans (rests_sendCommand _ _)
      · exact rests_messageDeleteOutgoing _ _ _ m

/-! ## Inserting -/

/-- What `db__message_insert` does to the mode of a client before it places a message. -/
def beforeInsert (m : Machine) : Machine := if m.ctx.sock ≠ none then leaveSlowMode m else m

theorem rests_insertState (dir : Direction) (qos : Qos) (stored : MsgStore) (m : Machine) :
    Rests (beforeInsert m) (insertState dir qos stored m).2 := by
  have hdrop : ∀ m : Machine, Rests m { m with ctx := { m.ctx with isDropping := true } } :=
    fun m => ⟨rfl, rfl, rfl, rfl, rfl⟩
  unfold insertState beforeInsert
  simp only
  split
  · split
    · exact .refl _
    · split
      · cases dir with
        | mdOut => exact .refl _
        | mdIn =>
          simp only
          split <;> exact .refl _
      · split
        · exact .refl _
        · exact hdrop _
  · split
    · exact .refl m
    · exact hdrop m

theorem rests_insertMsg (mid : UInt16) (dir : Direction) (qos : Qos) (retain : Bool)
    (stored : MsgStore) (properties : List Property) (state : MsgState) (m : Machine) :
    Rests m (insertMsg mid dir qos retain stored properties state m) := by
  unfold insertMsg
  simp only
  split
  · cases dir <;> exact ⟨rfl, rfl, rfl, rfl, rfl⟩
  · cases dir <;> exact ⟨rfl, rfl, rfl, rfl, rfl⟩

theorem rests_insertAfter (dir : Direction) (qos : Qos) (retain : Bool) (stored : MsgStore)
    (id : Bytes) (m : Machine) : Rests m (insertAfter dir qos retain stored id m) := by
  have hnote : Rests m (noteDestId dir retain stored id m) := by
    unfold noteDestId
    split
    · exact ⟨rfl, rfl, rfl, rfl, rfl⟩
    · exact .refl m
  have hwake : ∀ m : Machine, Rests m (wakeLazyBridge m) := by
    intro m
    unfold wakeLazyBridge
    split
    · rename_i hb
      split
      · refine ⟨?_, rfl, rfl, rfl, rfl⟩
        simp only [Context.rest, hb, Option.map_some]
      · exact .refl m
    · exact .refl m
  unfold insertAfter
  simp only
  split
  · exact (hnote.trans (hwake _)).trans (rests_onMsgs .mdOut _ _)
  · exact hnote.trans (hwake _)

theorem rests_messageInsert (mid : UInt16) (dir : Direction) (qos : Qos) (retain : Bool)
    (stored : MsgStore) (properties : List Property) (update : Bool) (m : Machine) :
    Rests m (messageInsert net mid dir qos retain stored properties update m).2 ∨
      Rests (beforeInsert m) (messageInsert net mid dir qos retain stored properties update m).2 := by
  unfold messageInsert
  split
  · exact .inl (.refl m)
  · rename_i id hid
    split
    · exact .inl (.refl m)
    · have hstate := rests_insertState dir qos stored m
      refine .inr ?_
      split
      · rename_i hs
        rw [hs] at hstate
        exact hstate
      · rename_i state rc m₁ hs
        rw [hs] at hstate
        simp only
        have hplaced := hstate.trans ((rests_insertMsg mid dir qos retain stored properties state
          m₁).trans (rests_insertAfter dir qos retain stored id _))
        split
        · have hlatest := hplaced.trans (@rests_messageWriteInflightOutLatest net _)
          split
          · exact hlatest
          · split
            · exact hlatest.trans (rests_messageWriteQueuedOut _)
            · exact (hlatest.trans (rests_messageWriteQueuedOut _)).trans
                (rests_messageWriteStorageOut _)
        · exact hplaced

/-! ## Acknowledging -/

def Sampled (type : AckType) (p : AckPacket) (m : Machine) : Prop :=
  m.ctx.state = .active ∧ ¬ (m.ctx.protocol ≠ .mqtt31 ∧ p.command &&& 0x0F ≠ 0) ∧
    (readAck type m.ctx.protocol p).isOk = true ∧ m.ctx.sendTime.1 > 0 ∧ type.qos = .q1

instance (type : AckType) (p : AckPacket) (m : Machine) : Decidable (Sampled type p m) :=
  inferInstanceAs (Decidable (_ ∧ _))

/-- The sample a PUBACK handled now gives. -/
def Machine.sample (m : Machine) : Int := measuredLatency m.ctx.sendTime m.db.read.1

/-- `lat_pre` with the sample of a PUBACK handled now. -/
def Machine.samples (m : Machine) : List Int :=
  m.ctx.latPre.set (m.ctx.countForLat.tmod 5).toNat m.sample

/-- What a sample does, field by field. -/
theorem recordLatency_eq (m : Machine) : recordLatency m =
    { db := m.db.read.2.read.2
      ctx := { m.ctx with
        latencyT := (m.db.read.1.sec - m.ctx.sendTime.1, m.db.read.1.nsec - m.ctx.sendTime.2)
        latPre := m.samples
        countForLat := m.ctx.countForLat.tmod 5 + 1
        thresholdL := UInt32.ofNat ((m.samples.sum.tdiv 5) % 2 ^ 32).toNat
        mode := if m.ctx.state = .disused then m.ctx.mode
          else if m.sample ≥ m.ctx.thresholdL.toNat then .slowMode else .normalMode
        slowModeTime := if m.sample ≥ m.ctx.thresholdL.toNat then
          if m.ctx.mode = .normalMode then m.db.read.2.read.1.wall else m.ctx.slowModeTime
          else 0 } } := by
  unfold recordLatency Context.setMode
  by_cases hlat : m.sample ≥ m.ctx.thresholdL.toNat
  · by_cases hstate : m.ctx.state = .disused
    · simp only [Machine.sample] at hlat
      simp only [hlat, hstate, ne_eq, not_true_eq_false, if_true, if_false, Machine.samples,
        Machine.sample]
    · simp only [Machine.sample] at hlat
      simp only [hlat, hstate, ne_eq, not_false_eq_true, if_true, if_false, Machine.samples,
        Machine.sample]
  · by_cases hstate : m.ctx.state = .disused
    · simp only [Machine.sample] at hlat
      simp only [hlat, hstate, ne_eq, not_true_eq_false, if_true, if_false, Machine.samples,
        Machine.sample]
    · simp only [Machine.sample] at hlat
      simp only [hlat, hstate, ne_eq, not_false_eq_true, if_true, if_false, Machine.samples,
        Machine.sample]

theorem recordLatency_onMsgs (f : MsgData → MsgData) (m : Machine) :
    recordLatency (m.onMsgs .mdOut f) = (recordLatency m).onMsgs .mdOut f := by
  rw [recordLatency_eq, recordLatency_eq]
  rfl

theorem rests_takeSample (type : AckType) (m : Machine) :
    Rests (if m.ctx.sendTime.1 > 0 ∧ type.qos = .q1 then recordLatency m else m)
      (takeSample type m).2 := by
  unfold takeSample
  split
  · have hstore := rests_messageWriteStorageOut (recordLatency m)
    simp only
    split
    · exact hstore
    · exact hstore.trans ⟨rfl, rfl, rfl, rfl, rfl⟩
  · exact .refl m

theorem rests_acknowledge (type : AckType) (mid : UInt16) (m : Machine) :
    Rests (takeSample type m).2 (acknowledge net type mid m).2 := by
  have hdelete := @rests_messageDeleteOutgoing net mid .waitForPubcomp type.qos
    (takeSample type m).2
  unfold acknowledge
  simp only
  split
  · exact .refl _
  · split
    · exact hdelete
    · exact hdelete

/-- An acknowledgement leaves the rest alone but for the sample. -/
theorem rests_handlePubackcomp (type : AckType) (p : AckPacket) (m : Machine) :
    (Sampled type p m ∧ Rests (recordLatency m) (handlePubackcomp net type p m).2) ∨
      (¬ Sampled type p m ∧ Rests m (handlePubackcomp net type p m).2) := by
  unfold handlePubackcomp
  split
  · rename_i hstate
    exact .inr ⟨fun h => hstate h.1, .refl m⟩
  rename_i hstate
  split
  · rename_i hflags
    exact .inr ⟨fun h => h.2.1 hflags, .refl m⟩
  rename_i hflags
  have hquota : Rests m (m.onMsgs .mdOut (·.incrementQuota)) := rests_onMsgs .mdOut _ m
  simp only
  split
  · rename_i rc hread
    refine .inr ⟨fun h => ?_, hquota⟩
    have hok := h.2.2.1
    rw [show readAck type m.ctx.protocol p = .error rc from hread] at hok
    cases hok
  · rename_i mid hread
    have hack := (rests_takeSample type (m.onMsgs .mdOut (·.incrementQuota))).trans
      (@rests_acknowledge net type mid _)
    have hok : (readAck type m.ctx.protocol p).isOk = true := by
      rw [show readAck type m.ctx.protocol p = .ok mid from hread]
      rfl
    by_cases hsample : m.ctx.sendTime.1 > 0 ∧ type.qos = .q1
    · refine .inl ⟨⟨not_not.mp hstate, hflags, hok, hsample⟩, ?_⟩
      rw [show (m.onMsgs .mdOut (·.incrementQuota)).ctx.sendTime = m.ctx.sendTime from rfl,
        if_pos hsample, recordLatency_onMsgs] at hack
      exact (rests_onMsgs .mdOut _ _).trans hack
    · refine .inr ⟨fun h => hsample h.2.2.2, ?_⟩
      rw [show (m.onMsgs .mdOut (·.incrementQuota)).ctx.sendTime = m.ctx.sendTime from rfl,
        if_neg hsample] at hack
      exact hquota.trans hack

end Rests

end AdaptiveMqtt.Db
