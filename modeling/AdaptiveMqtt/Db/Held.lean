import AdaptiveMqtt.Db.Kept
import AdaptiveMqtt.Db.Window

/-!
# How much a client can hold

`max_queued_messages` is to bound what is kept for one client above its window. A message
of QoS > 0 takes a free place of the window or passes `db__ready_for_queue`, so the free
places and the messages held together stay below the window and the limit (`Reserved`).
A message that a client in slow mode gets is put into storage untested, and an
acknowledgement gives a place back whether or not a message leaves.
-/

namespace AdaptiveMqtt.Db

/-- The messages of QoS > 0 in the three lists. -/
def MsgData.held12 (md : MsgData) : Nat := md.all.countP (·.qos ≠ .q0)

/-- A window of `n`, with at most `b` places free or held. -/
structure Reserved (n b : Nat) (md : MsgData) : Prop where
  maximum : md.inflightMaximum = n
  quota : md.inflightQuota ≤ n
  counted : (md.held12 : Int) ≤ md.msgCount12
  held : md.inflightQuota + md.held12 ≤ b

section Reserved

variable {n b : Nat} {md md' : MsgData}

theorem Shuffle.held12 (h : Shuffle md md') : md'.held12 = md.held12 := by
  unfold MsgData.held12
  rw [← countP_map_key, h.perm.countP_eq, countP_map_key]

theorem Reserved.shuffle (h : Reserved n b md) (hs : Shuffle md md')
    (hmax : md'.inflightMaximum = md.inflightMaximum)
    (hquota : md'.inflightQuota ≤ md.inflightQuota) : Reserved n b md' := by
  refine ⟨hmax.trans h.maximum, hquota.trans h.quota, ?_, ?_⟩
  · rw [hs.held12, hs.msgCount12]
    exact h.counted
  · rw [hs.held12]
    exact (Nat.add_le_add_right hquota _).trans h.held

theorem Reserved.dequeueFirst (h : Reserved n b md) : Reserved n b md.dequeueFirst := by
  refine h.shuffle (Shuffle.dequeueFirst md) (dequeueFirst_window md).1 ?_
  unfold MsgData.dequeueFirst
  split
  · exact le_rfl
  · rw [(decrementQuota_quota _).2]
    exact Nat.sub_le _ _

theorem Reserved.destorageFirst (h : Reserved n b md) (c : Bool) :
    Reserved n b (md.destorageFirst c) := by
  suffices hwin : (md.destorageFirst c).inflightMaximum = md.inflightMaximum ∧
      (md.destorageFirst c).inflightQuota ≤ md.inflightQuota from
    h.shuffle (Shuffle.destorageFirst md c) hwin.1 hwin.2
  unfold MsgData.destorageFirst
  split
  · exact ⟨rfl, le_rfl⟩
  · split
    · exact ⟨rfl, le_rfl⟩
    · obtain ⟨hmax, hquota⟩ := decrementQuota_quota
        { md with storage := _, inflight := md.inflight ++ [_] }
      rw [hmax, hquota]
      exact ⟨rfl, Nat.sub_le _ _⟩

theorem Reserved.deleteOutgoingLoop (now : Int) (l : List ClientMsg) (i : Nat)
    (h : Reserved n b md) : Reserved n b (deleteOutgoingLoop now l i md) := by
  induction l generalizing i md with
  | nil => exact h
  | cons msg rest ih =>
    unfold Db.deleteOutgoingLoop
    split
    · exact h
    · refine ih _ (Reserved.dequeueFirst ?_)
      exact h.shuffle (Shuffle.updateQueued writes_restamp md) rfl le_rfl

theorem held12_remove {item : ClientMsg} (hnd : (md.inflight.map (·.addr)).Nodup)
    (hmem : item ∈ md.inflight) :
    (md.remove item).held12 + (if item.qos ≠ .q0 then 1 else 0) = md.held12 := by
  have hperm := (eraseP_perm hnd (List.mem_map.mpr ⟨item, hmem, rfl⟩)).countP_eq (·.qos ≠ .q0)
  rw [List.countP_cons, countP_map_key, countP_map_key, ClientMsg.key_qos] at hperm
  unfold MsgData.held12
  rw [MsgData.remove_all, MsgData.all]
  simp only [List.countP_append, hperm, decide_eq_true_eq]
  omega

theorem remove_msgCount12 (md : MsgData) (item : ClientMsg) :
    (md.remove item).msgCount12 = md.msgCount12 - if item.qos ≠ .q0 then 1 else 0 := by
  unfold MsgData.remove
  by_cases hq : item.qos = .q0 <;> simp [hq]

/-- A message of QoS > 0 makes room when it leaves. -/
theorem Reserved.remove {item : ClientMsg} (h : Reserved n b md)
    (hnd : (md.inflight.map (·.addr)).Nodup) (hmem : item ∈ md.inflight) :
    Reserved n (b - if item.qos ≠ .q0 then 1 else 0) (md.remove item) := by
  obtain ⟨-, -, hquota, hmax⟩ := md.remove_window item
  have hheld := held12_remove hnd hmem
  have hcounted := h.counted
  have hroom := h.held
  refine ⟨hmax.trans h.maximum, hquota.trans_le h.quota, ?_, ?_⟩
  · rw [remove_msgCount12]
    by_cases hq : item.qos ≠ .q0
    · rw [if_pos hq] at hheld ⊢
      omega
    · rw [if_neg hq] at hheld ⊢
      omega
  · rw [hquota]
    omega

theorem Reserved.incrementQuota (h : Reserved n b md) : Reserved n (b + 1) md.incrementQuota := by
  have hsh := Shuffle.incrementQuota md
  have hheld := h.held
  have hquota := h.quota
  have hmax := h.maximum
  refine ⟨?_, ?_, ?_, ?_⟩
  · exact (incrementQuota_load md).1.trans h.maximum
  · unfold MsgData.incrementQuota
    split
    · show md.inflightQuota + 1 ≤ n
      omega
    · exact hquota
  · rw [hsh.held12, hsh.msgCount12]
    exact h.counted
  · rw [hsh.held12]
    unfold MsgData.incrementQuota
    split
    · show md.inflightQuota + 1 + md.held12 ≤ b + 1
      omega
    · omega

theorem Reserved.mono {b' : Nat} (h : Reserved n b md) (hb : b ≤ b') : Reserved n b' md :=
  ⟨h.maximum, h.quota, h.counted, h.held.trans hb⟩

theorem kept_reserved (net : Net) (hn : n ≠ 0) (b : Nat) : Kept net (Reserved n b) where
  maximum h := by
    rw [h.maximum]
    exact hn
  write hf h := h.shuffle (Shuffle.updateInflight hf.writes _) rfl le_rfl
  queued hf h := h.shuffle (Shuffle.updateQueued hf.writes _) rfl le_rfl
  storage hf h := h.shuffle (Shuffle.updateStorage hf.writes _) rfl le_rfl
  gone hnd hmem _ h := (h.remove hnd hmem).mono (Nat.sub_le _ _)
  expired hnd hmem hq h := by
    rw [← MsgData.incrementQuota_inflight] at hnd hmem
    have hgone := h.incrementQuota.remove hnd hmem
    rwa [if_pos hq] at hgone
  dequeue _ h := h.dequeueFirst
  destorage c _ h := h.destorageFirst c

end Reserved

/-! ## Inserting -/

section Insert

variable {n b : Nat} {md : MsgData} {m : Machine}

theorem insert_window (md : MsgData) (msg : ClientMsg) (qos : Qos) :
    (md.insert msg qos).inflightMaximum = md.inflightMaximum ∧ (md.insert msg qos).inflightQuota =
      md.inflightQuota - if msg.qos ≠ .q0 then 1 else 0 := by
  obtain ⟨hquota, hmax, -⟩ := md.place_window msg qos
  unfold MsgData.insert
  simp only
  split
  · obtain ⟨hmax', hquota'⟩ := decrementQuota_quota ((md.place msg).count msg qos)
    exact ⟨hmax'.trans hmax, by rw [hquota', hquota]⟩
  · exact ⟨hmax, hquota⟩

theorem insert_held12 (md : MsgData) (msg : ClientMsg) (qos : Qos) :
    (md.insert msg qos).held12 = md.held12 + if msg.qos ≠ .q0 then 1 else 0 := by
  have hplace : ((md.place msg).count msg qos).held12 =
      md.held12 + if msg.qos ≠ .q0 then 1 else 0 := by
    unfold MsgData.held12
    rw [(MsgData.place_count_all md msg qos).countP_eq, List.countP_cons]
    simp only [decide_eq_true_eq]
  unfold MsgData.insert
  simp only
  split
  · rename_i hq
    rw [(Shuffle.decrementQuota _).held12, hplace, if_pos hq]
  · rename_i hq
    rw [hplace, if_neg hq]

theorem insert_msgCount12 (md : MsgData) (msg : ClientMsg) (qos : Qos) :
    (md.insert msg qos).msgCount12 = md.msgCount12 + if qos ≠ .q0 then 1 else 0 := by
  have hplace : ((md.place msg).count msg qos).msgCount12 =
      md.msgCount12 + if qos ≠ .q0 then 1 else 0 := by
    have hcount : (md.place msg).msgCount12 = md.msgCount12 :=
      congrArg Totals.msgCount12 (MsgData.place_totals md msg)
    unfold MsgData.count
    by_cases hq : qos = .q0 <;> simp [hq, hcount]
  unfold MsgData.insert
  simp only
  split
  · rw [(Shuffle.decrementQuota _).msgCount12, hplace]
  · exact hplace

/-- A message of QoS > 0 takes a free place or is below the limit. -/
theorem Reserved.insert (h : Reserved n b md) {msg : ClientMsg} {qos : Qos}
    (hqos : msg.qos ≠ .q0 → qos ≠ .q0)
    (hroom : msg.qos ≠ .q0 → md.inflightQuota ≠ 0 ∨ md.inflightQuota + md.held12 < b) :
    Reserved n b (md.insert msg qos) := by
  obtain ⟨hmax, hquota⟩ := insert_window md msg qos
  have hcounted := h.counted
  have hheld := h.held
  refine ⟨hmax.trans h.maximum, ?_, ?_, ?_⟩
  · rw [hquota]
    exact (Nat.sub_le _ _).trans h.quota
  · rw [insert_held12, insert_msgCount12]
    by_cases hq : msg.qos ≠ .q0
    · rw [if_pos hq, if_pos (hqos hq)]
      omega
    · rw [if_neg hq]
      split <;> omega
  · rw [hquota, insert_held12]
    by_cases hq : msg.qos ≠ .q0
    · rw [if_pos hq]
      rcases hroom hq with h0 | hlt <;> omega
    · rw [if_neg hq]
      exact hheld

theorem count_of_readyForQueue {config : Config} {ctx : Context} {qos : Qos}
    (hmsgs : config.maxQueuedMessages ≠ 0) (hbytes : config.maxQueuedBytes = 0) (hq : qos ≠ .q0)
    (h : readyForQueue config ctx qos md = true) :
    md.msgCount12 - (if ctx.sock = none then 0 else (md.inflightMaximum : Int)) <
      config.maxQueuedMessages := by
  simpa [readyForQueue, hmsgs, hbytes, hq] using h

/-- What passes `db__ready_for_queue` has a free place or is below the limit. -/
theorem Reserved.room {q : Nat} {config : Config} {ctx : Context} {qos : Qos} (hq : 0 < q)
    (h : Reserved n (n + q) md) (hmsgs : config.maxQueuedMessages = q)
    (hbytes : config.maxQueuedBytes = 0) (h0 : qos ≠ .q0)
    (hready : readyForQueue config ctx qos md = true) :
    md.inflightQuota ≠ 0 ∨ md.inflightQuota + md.held12 < n + q := by
  have hcount := count_of_readyForQueue (by omega) hbytes h0 hready
  have hcounted := h.counted
  have hquota := h.quota
  rw [hmsgs, h.maximum] at hcount
  split at hcount <;> omega

end Insert

/-! ## Runs -/

namespace Traffic

/-- A message of QoS > 0 that is put into storage would have a place in the window or in
the queue. An acknowledgement that is handled is of a message in flight. -/
def Admitted (m : Machine) : Traffic → Prop
  | insert _ qos retain stored _ _ => ∀ id, m.ctx.id = some id →
      insertRefused .mdOut qos retain stored id m = none → Qos.min qos m.ctx.maxQos ≠ .q0 →
      Withheld m stored → m.ctx.msgsOut.inflightQuota ≠ 0 ∨
        readyForQueue m.db.config m.ctx qos m.ctx.msgsOut = true
  | ack type p => m.Heeds p → ∃ mid tail, Acks m type p mid tail
  | _ => True

end Traffic

structure Limited (n q : Nat) (m : Machine) : Prop where
  sound : Sound .mdOut m
  reserved : Reserved n (n + q) m.ctx.msgsOut
  inflightBytes : m.db.config.maxInflightBytes = 0
  queuedMessages : m.db.config.maxQueuedMessages = q
  queuedBytes : m.db.config.maxQueuedBytes = 0

section Run

variable {n q : Nat} {m : Machine}

theorem Limited.messageInsert (net : Net) (hn : n ≠ 0) (hq : 0 < q) (h : Limited n q m)
    {mid : UInt16} {qos : Qos} {retain : Bool} {stored : MsgStore} {properties : List Property}
    {update : Bool}
    (hok : Traffic.Admitted m (.insert mid qos retain stored properties update)) :
    Reserved n (n + q)
      (messageInsert net mid .mdOut qos retain stored properties update m).2.ctx.msgsOut := by
  refine (kept_reserved net hn _).messageInsert h.sound mid qos retain stored properties update
    h.reserved fun id state rc m₁ msg hid hrefused hstate hf hnew => ?_
  have hmaxQos : m₁.ctx.maxQos = m.ctx.maxQos := Context.of_core (·.maxQos) (fun _ => rfl) hf.core
  have hqos : msg.qos = Qos.min qos m.ctx.maxQos := hmaxQos ▸ hnew.qos
  refine h.reserved.insert (fun h0 => Qos.min_ne_q0 (hqos ▸ h0)) fun h0 => ?_
  rw [hqos] at h0
  have hroom := fun hready : readyForQueue m.db.config m.ctx qos m.ctx.msgsOut = true =>
    h.reserved.room hq h.queuedMessages h.queuedBytes (Qos.min_ne_q0 h0) hready
  rcases insertState_cases hstate with ⟨-, hw⟩ | ⟨-, -, -, hready⟩ | ⟨-, -, hready, -⟩
  · rcases hok id hid hrefused h0 hw with hfree | hready
    · exact .inl hfree
    · exact hroom hready
  · exact .inl (quota_of_readyForFlight (by rw [h.reserved.maximum]; exact hn) h.inflightBytes
      (Qos.min_ne_q0 h0) hready)
  · exact hroom hready

theorem Reserved.acknowledge (net : Net) (hn : n ≠ 0) {b : Nat} {type : AckType} {mid : UInt16}
    {tail : ClientMsg} (hs : Sound .mdOut m) (hp : Reserved n (b + 1) m.ctx.msgsOut)
    (hfind : m.ctx.msgsOut.inflight.find? (·.mid = mid) = some tail) (hq : tail.qos = type.qos)
    (hstate : type.qos = .q2 → tail.state = .waitForPubcomp) :
    Reserved n b (acknowledge net type mid m).2.ctx.msgsOut := by
  have hsteps : Steps (loose net) m (takeSample type m).2 :=
    steps_takeSample trivial type (nomatch ·)
  have hs' := sound_steps hs hsteps
  have hp' := (kept_reserved net hn (b + 1)).takeSample type hp
  have hfind' : (takeSample type m).2.ctx.msgsOut.inflight.find? (·.mid = mid) = some tail := by
    obtain ⟨new, hnew⟩ := takeSample_inflight type m
    rw [hnew, List.find?_append, hfind]
    rfl
  have hq0 : tail.qos ≠ .q0 := by
    rw [hq]
    cases type <;> exact (nomatch ·)
  have hdel : Reserved n b (messageDeleteOutgoing net mid .waitForPubcomp type.qos
      (takeSample type m).2).2.ctx.msgsOut := by
    refine (kept_reserved net hn b).messageDeleteOutgoing hs' mid .waitForPubcomp type.qos
      (fun hnone => ?_) (fun tail' hsome hbad => ?_) (fun tail' hsome _ _ => ?_)
    · exact nomatch hfind'.symm.trans hnone
    · cases hfind'.symm.trans hsome
      rcases hbad with hbad | hbad
      · exact absurd hq hbad
      · exact absurd (hstate hbad.1) hbad.2
    · cases hfind'.symm.trans hsome
      have hgone := hp'.remove hs'.nodup_inflight (List.mem_of_find?_eq_some hsome)
      rw [if_pos hq0] at hgone
      exact hgone.deleteOutgoingLoop _ _ _
  unfold Db.acknowledge
  simp only [takeSample_rc, ne_eq, not_true, if_false]
  split <;> exact hdel

theorem Limited.handlePubackcomp (net : Net) (hn : n ≠ 0) (h : Limited n q m) {type : AckType}
    {p : AckPacket} (hok : Traffic.Admitted m (.ack type p)) :
    Reserved n (n + q) (handlePubackcomp net type p m).2.ctx.msgsOut := by
  unfold Db.handlePubackcomp
  split
  · exact h.reserved
  · rename_i hactive
    split
    · exact h.reserved
    · rename_i hflags
      obtain ⟨mid, tail, hread, hfind, hq, hstate⟩ := hok ⟨not_not.mp hactive, by tauto⟩
      have hprot : (m.onMsgs .mdOut (·.incrementQuota)).ctx.protocol = m.ctx.protocol := rfl
      have hinc : Steps (loose net) m (m.onMsgs .mdOut (·.incrementQuota)) :=
        steps_shuffle trivial (Shuffle.incrementQuota _)
      simp only [hprot, hread]
      refine Reserved.acknowledge net hn (sound_steps h.sound hinc) h.reserved.incrementQuota ?_ hq
        hstate
      show m.ctx.msgsOut.incrementQuota.inflight.find? _ = _
      rw [MsgData.incrementQuota_inflight]
      exact hfind

theorem Limited.handlePubrec (net : Net) (hn : n ≠ 0) (h : Limited n q m) (p : AckPacket) :
    Reserved n (n + q) (handlePubrec net p m).2.ctx.msgsOut := by
  have hk := kept_reserved net hn (n + q)
  unfold Db.handlePubrec
  split
  · exact h.reserved
  · split
    · exact h.reserved
    · rename_i mid reasonCode _
      simp only
      split
      · have hup : Reserved n (n + q)
            (messageUpdateOutgoing mid .waitForPubcomp .q2 m).2.ctx.msgsOut :=
          hk.messageUpdateOutgoing mid .q2 rfl h.reserved
        split
        · exact hup
        · exact hup
      · refine hk.messageDeleteOutgoing h.sound mid .waitForPubrec .q2
          (fun _ => h.reserved.deleteOutgoingLoop _ _ _) (fun _ _ _ => h.reserved)
          fun tail hfind _ _ => ?_
        have hgone := h.reserved.remove h.sound.nodup_inflight (List.mem_of_find?_eq_some hfind)
        exact (hgone.mono (Nat.sub_le _ _)).deleteOutgoingLoop _ _ _

theorem limited_step (net : Net) (hn : n ≠ 0) (hq : 0 < q) (h : Limited n q m) {t : Traffic}
    (hok : t.Admitted m) : Limited n q (t.exec net m) := by
  have hk := kept_reserved net hn (n + q)
  have hr : Ready (loose net) m := ⟨h.sound, (nomatch ·)⟩
  have ht : (loose net).touch .mdOut := trivial
  have hsteps : ∀ {m'}, Steps (loose net) m m' → Reserved n (n + q) m'.ctx.msgsOut →
      Limited n q m' := by
    intro m' hm hp
    have hconfig := (core_steps hm).1
    exact ⟨sound_steps h.sound hm, hp, hconfig ▸ h.inflightBytes, hconfig ▸ h.queuedMessages,
      hconfig ▸ h.queuedBytes⟩
  cases t with
  | insert mid qos retain stored properties update =>
    exact hsteps (steps_messageInsert ht hr trivial mid qos retain properties update (nomatch ·))
      (h.messageInsert net hn hq hok)
  | writeQueuedOut =>
    exact hsteps (steps_messageWriteQueuedOut ht m) (hk.messageWriteQueuedOut h.reserved)
  | writeStorageOut =>
    exact hsteps (steps_messageWriteStorageOut ht m) (hk.messageWriteStorageOut h.reserved)
  | writeInflightOutLatest =>
    exact hsteps (steps_messageWriteInflightOutLatest ht hr)
      (hk.written.messageWriteInflightOutLatest h.sound h.reserved)
  | writeInflightOutAll =>
    exact hsteps (steps_messageWriteInflightOutAll ht hr)
      (hk.written.messageWriteInflightOutAll h.sound h.reserved)
  | ack type p =>
    exact hsteps (steps_handlePubackcomp ht hr type p (nomatch ·)) (h.handlePubackcomp net hn hok)
  | pubrec p => exact hsteps (steps_handlePubrec ht hr p) (h.handlePubrec net hn p)
  | between db ctx =>
    refine ⟨⟨h.sound.nodup, fun a ha => ?_⟩, h.reserved, h.inflightBytes, h.queuedMessages,
      h.queuedBytes⟩
    exact (h.sound.fresh a ha).trans_le (Nat.le_add_right _ _)

theorem limited_start (h : FullQuota n m) (hmsgs : m.db.config.maxQueuedMessages = q)
    (hbytes : m.db.config.maxQueuedBytes = 0) : Limited n q m := by
  have hheld : m.ctx.msgsOut.held12 = 0 := by
    unfold MsgData.held12
    rw [h.clear.1]
    rfl
  have hcount : m.ctx.msgsOut.msgCount12 = 0 := congrArg Totals.msgCount12 h.clear.2.1
  refine ⟨((clear_spec h.clear).1 (loose Net.taking)).sound, ⟨h.maximum, h.quota.le, ?_, ?_⟩,
    h.bytes, hmsgs, hbytes⟩
  · rw [hheld, hcount]
    exact le_rfl
  · rw [hheld, h.quota]
    exact Nat.le_add_right n q

/-- **The limits bound what a client holds** as long as storage is filled within them and
acknowledgements are of messages in flight. -/
theorem held_within_limits {m₀ : Machine} (hn : 0 < n) (hq : 0 < q) (h₀ : FullQuota n m₀)
    (hmsgs : m₀.db.config.maxQueuedMessages = q) (hbytes : m₀.db.config.maxQueuedBytes = 0)
    (h : Runs Traffic.Admitted m₀ m) : m.ctx.msgsOut.held12 ≤ n + q := by
  have hlim : Limited n q m := by
    induction h with
    | start => exact limited_start h₀ hmsgs hbytes
    | next _ net t hok ih => exact limited_step net (Nat.pos_iff_ne_zero.mp hn) hq ih hok
  exact (Nat.le_add_left _ _).trans hlim.reserved.held

end Run

/-- Two messages are sent and one is acknowledged. -/
theorem held_within_limits_puback :
    let m := (Traffic.ack .puback (.puback 1)).exec Net.taking (Machine.sending [1, 2])
    FullQuota 2 Machine.idleTwo ∧ m.ctx.msgsOut.held12 = 1 ∧ m.ctx.msgsOut.held12 ≤ 2 + 1000 := by
  have h₀ : FullQuota 2 Machine.idleTwo := ⟨⟨rfl, rfl, rfl⟩, rfl, rfl, rfl⟩
  have hinsert : ∀ (m : Machine) (s : Nat), (leaveSlowMode m).ctx.mode = .normalMode →
      Traffic.Admitted m (.insertByte s) := by
    intro m s hmode id _ _ _ hw
    exact nomatch hmode.symm.trans hw.2.2.1
  have hack : Traffic.Admitted (Machine.sending [1, 2]) (.ack .puback (.puback 1)) :=
    fun _ => ⟨1, _, rfl, rfl, rfl, (nomatch ·)⟩
  have hrun := ((Runs.start.next Net.taking _ (hinsert Machine.idleTwo 1 rfl)).next Net.taking _
    (hinsert (Machine.sending [1]) 2 rfl)).next Net.taking _ hack
  exact ⟨h₀, rfl, held_within_limits (Nat.succ_pos 1) (Nat.succ_pos 999) h₀ rfl rfl hrun⟩

/-- A client in slow mode with a window of one message and a queue of one. -/
def Machine.idleSlow : Machine :=
  { db := { Machine.idle.db with
      config := { Config.init with maxQueuedMessages := 1, thresholdS := 1 } }
    ctx := { Machine.idle.ctx with
      msgsOut := MsgData.empty 1, mode := .slowMode, slowModeTime := 1 } }

/-- **The limits are exceeded.** Three messages are put into storage. -/
theorem held_beyond_limits :
    FullQuota 1 Machine.idleSlow ∧ Machine.idleSlow.db.config.maxQueuedMessages = 1 ∧
      Machine.idleSlow.db.config.maxQueuedBytes = 0 ∧
      ¬ ∀ m, Runs Traffic.Answers Machine.idleSlow m → m.ctx.msgsOut.held12 ≤ 1 + 1 := by
  refine ⟨⟨⟨rfl, rfl, rfl⟩, rfl, rfl, rfl⟩, rfl, rfl, fun hall => ?_⟩
  have hrun := runs_sending Traffic.Answers (fun _ _ => trivial) [1, 2, 3]
    (Runs.start : Runs Traffic.Answers Machine.idleSlow _)
  exact absurd (hall _ hrun) (by decide)

end AdaptiveMqtt.Db

/-!
## Runs with their steps

`Runs` forgets the way to a machine. A `History` keeps it: the list of steps, each with
the machine it started from and the network it ran on, so that a condition may speak of
all three and a property of the whole run.
-/

namespace AdaptiveMqtt.Db

/-- One event of a run. -/
structure Step where
  before : Machine
  net : Net
  event : Traffic

def Step.after (s : Step) : Machine := s.event.exec s.net s.before

/-- The steps allowed by `ok` that lead from `m₀` to a machine. -/
inductive History (ok : Step → Prop) (m₀ : Machine) : List Step → Machine → Prop where
  | start : History ok m₀ [] m₀
  | next {steps : List Step} {m : Machine} (h : History ok m₀ steps m) (net : Net) (t : Traffic)
    (hok : ok ⟨m, net, t⟩) : History ok m₀ (steps ++ [⟨m, net, t⟩]) (t.exec net m)

section History

variable {ok : Step → Prop} {m₀ m : Machine} {steps : List Step}

/-- What a step keeps, a run keeps. -/
theorem History.keep {I : Machine → Prop} (h : History ok m₀ steps m) (h₀ : I m₀)
    (hstep : ∀ s, ok s → I s.before → I s.after) : I m := by
  induction h with
  | start => exact h₀
  | next _ net t hok ih => exact hstep ⟨_, net, t⟩ hok ih

end History

end AdaptiveMqtt.Db
