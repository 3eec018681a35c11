import AdaptiveMqtt.Db.Held

/-!
# The quota is what is free

`Db.Window` bounds the sum of the quota and of the QoS > 0 messages in flight from above.
Here it is to be the window exactly (`Balanced`), so that no place is lost. It is as long
as whatever takes a place is in flight afterwards: a message that is queued finds the quota
used up already, but one put into storage does not, and is counted again when it leaves.
-/

namespace AdaptiveMqtt.Db

open Lib

/-- A window of `n`, with `b` places free or used, all of them by outgoing messages of
QoS > 0. -/
structure Balanced (n b : Nat) (md : MsgData) : Prop where
  maximum : md.inflightMaximum = n
  load : md.load = b
  outward : ∀ a ∈ md.all, a.direction = .mdOut
  qos0 : ∀ a ∈ md.all, a.state = .publishQos0 → a.qos = .q0
  waiting : ∀ a ∈ md.queued ++ md.storage, a.qos ≠ .q0

section Edits

variable {n b : Nat} {md md' : MsgData}

/-- A message is as one of the list, or was marked. -/
def From (l : List ClientMsg) (a : ClientMsg) : Prop :=
  ∃ c ∈ l, a.key = c.key ∧ (a = c ∨ a.StateOk)

theorem From.of_mem {l : List ClientMsg} {a : ClientMsg} (h : a ∈ l) : From l a :=
  ⟨a, h, rfl, .inl rfl⟩

theorem From.mono {l l' : List ClientMsg} {a : ClientMsg} (h : From l a) (hl : l ⊆ l') :
    From l' a := by
  obtain ⟨c, hc, hkey⟩ := h
  exact ⟨c, hl hc, hkey⟩

theorem from_updateAt {addr : Nat} {f : ClientMsg → ClientMsg} {l : List ClientMsg}
    {a : ClientMsg} (hf : Marks f) (h : a ∈ updateAt addr f l) : From l a := by
  obtain ⟨c, hc, rfl⟩ := List.mem_map.mp h
  split
  · exact ⟨c, hc, hf.key c, .inr (hf.stateOk c)⟩
  · exact .of_mem hc

theorem ClientMsg.StateOk.qos0 {a : ClientMsg} (h : a.StateOk) (hs : a.state = .publishQos0) :
    a.qos = .q0 := by
  have hpub := h (by rw [hs]; rfl)
  rw [hs] at hpub
  revert hpub
  cases a.qos <;> simp [publishState]

theorem Balanced.edit {b' : Nat} (h : Balanced n b md)
    (hmax : md'.inflightMaximum = md.inflightMaximum) (hload : md'.load = b')
    (hall : ∀ a ∈ md'.all, From md.all a)
    (hwait : ∀ a ∈ md'.queued ++ md'.storage, From (md.queued ++ md.storage) a) :
    Balanced n b' md' := by
  refine ⟨hmax.trans h.maximum, hload, fun a ha => ?_, fun a ha hs => ?_, fun a ha => ?_⟩
  · obtain ⟨c, hc, hkey, -⟩ := hall a ha
    exact (congrArg (·.direction) hkey).trans (h.outward c hc)
  · obtain ⟨c, hc, -, rfl | hok⟩ := hall a ha
    · exact h.qos0 a hc hs
    · exact hok.qos0 hs
  · obtain ⟨c, hc, hkey, -⟩ := hwait a ha
    have hqos : a.qos = c.qos := congrArg (·.qos) hkey
    rw [hqos]
    exact h.waiting c hc

/-- A message of QoS > 0 goes to flight on a free place. -/
theorem load_fly {msg : ClientMsg} (hq : md.inflightQuota ≠ 0) (h0 : msg.qos ≠ .q0)
    (hin : md'.inflight = md.inflight ++ [msg]) (hquota : md'.inflightQuota = md.inflightQuota) :
    md'.decrementQuota.load = md.load := by
  have hone : [msg].countP (·.qos ≠ .q0) = 1 := by simp [h0]
  unfold MsgData.decrementQuota
  rw [if_pos (by omega)]
  show md'.inflightQuota - 1 + md'.inflight.countP _ = md.inflightQuota + md.inflight.countP _
  rw [hin, List.countP_append, hone]
  omega

theorem Balanced.fly {msg : ClientMsg} (h : Balanced n b md) (hq : md.inflightQuota ≠ 0)
    (h0 : msg.qos ≠ .q0) (hmsg : From md.all msg) (hin : md'.inflight = md.inflight ++ [msg])
    (hwait : md'.queued ++ md'.storage ⊆ md.queued ++ md.storage)
    (hquota : md'.inflightQuota = md.inflightQuota)
    (hmax : md'.inflightMaximum = md.inflightMaximum) : Balanced n b md'.decrementQuota := by
  obtain ⟨hin', hqueued', hstorage', hmax'⟩ := decrementQuota_fields md'
  refine h.edit (hmax'.trans hmax) ((load_fly hq h0 hin hquota).trans h.load) (fun a ha => ?_)
    fun a ha => ?_
  · rw [MsgData.all, hin', hqueued', hstorage', hin, List.append_assoc] at ha
    rcases List.mem_append.mp ha with ha | ha
    · rcases List.mem_append.mp ha with ha | ha
      · exact .of_mem (MsgData.mem_all.mpr (.inl ha))
      · rw [List.mem_singleton.mp ha]
        exact hmsg
    · refine .of_mem (MsgData.mem_all.mpr (.inr ?_))
      exact List.mem_append.mp (hwait ha)
  · rw [hqueued', hstorage'] at ha
    exact .of_mem (hwait ha)

theorem Balanced.dequeueFirst (h : Balanced n b md) (hq : md.inflightQuota ≠ 0) :
    Balanced n b md.dequeueFirst := by
  unfold MsgData.dequeueFirst
  split
  · exact h
  · rename_i msg rest hqueued
    have hmem : msg ∈ md.queued := hqueued ▸ List.mem_cons_self
    refine h.fly hq (h.waiting msg (List.mem_append_left _ hmem))
      (.of_mem (MsgData.mem_all.mpr (.inr (.inl hmem)))) rfl ?_ rfl rfl
    intro a ha
    rw [hqueued]
    exact List.mem_cons_of_mem msg ha

theorem Balanced.destorageFirst (h : Balanced n b md) (c : Bool)
    (hq : c = true → md.inflightQuota ≠ 0) : Balanced n b (md.destorageFirst c) := by
  unfold MsgData.destorageFirst
  split
  · exact h
  · rename_i msg rest hstorage
    have hmem : msg ∈ md.storage := hstorage ▸ List.mem_cons_self
    have hrest : rest ⊆ md.storage := hstorage ▸ List.subset_cons_self msg rest
    split
    · refine h.edit rfl h.load (fun a ha => .of_mem ?_) fun a ha => .of_mem ?_
      · rcases MsgData.mem_all.mp ha with ha | ha | ha
        · exact MsgData.mem_all.mpr (.inl ha)
        · rcases List.mem_append.mp ha with ha | ha
          · exact MsgData.mem_all.mpr (.inr (.inl ha))
          · rw [List.mem_singleton.mp ha]
            exact MsgData.mem_all.mpr (.inr (.inr hmem))
        · exact MsgData.mem_all.mpr (.inr (.inr (hrest ha)))
      · rcases List.mem_append.mp ha with ha | ha
        · rcases List.mem_append.mp ha with ha | ha
          · exact List.mem_append_left _ ha
          · rw [List.mem_singleton.mp ha]
            exact List.mem_append_right _ hmem
        · exact List.mem_append_right _ (hrest ha)
    · rename_i hc
      refine h.fly (hq (by simpa using hc)) (h.waiting msg (List.mem_append_right _ hmem))
        (.of_mem (MsgData.mem_all.mpr (.inr (.inr hmem)))) rfl ?_ rfl rfl
      exact List.append_subset.mpr ⟨List.subset_append_left _ _,
        fun a ha => List.mem_append_right _ (hrest ha)⟩

theorem Balanced.remove {item : ClientMsg} (h : Balanced n b md)
    (hnd : (md.inflight.map (·.addr)).Nodup) (hmem : item ∈ md.inflight) :
    Balanced n (b - if item.qos ≠ .q0 then 1 else 0) (md.remove item) := by
  obtain ⟨hin, hqueued, -, hmax⟩ := md.remove_window item
  have hload := load_remove hnd (List.mem_map.mpr ⟨item, hmem, rfl⟩)
  have hstorage := MsgData.remove_storage md item
  have hsub : (md.remove item).inflight ⊆ md.inflight := by
    rw [hin]
    exact List.eraseP_sublist.subset
  refine h.edit hmax ?_ (fun a ha => .of_mem ?_) fun a ha => .of_mem ?_
  · rw [← h.load]
    omega
  · rcases MsgData.mem_all.mp ha with ha | ha | ha
    · exact MsgData.mem_all.mpr (.inl (hsub ha))
    · exact MsgData.mem_all.mpr (.inr (.inl (hqueued ▸ ha)))
    · exact MsgData.mem_all.mpr (.inr (.inr (hstorage ▸ ha)))
  · rwa [hqueued, hstorage] at ha

/-- A place is given back while one is used. -/
theorem Balanced.incrementQuota {item : ClientMsg} (h : Balanced n n md)
    (hmem : item ∈ md.inflight) (hq : item.qos ≠ .q0) : Balanced n (n + 1) md.incrementQuota := by
  have hpos : 0 < md.flying12 := List.countP_pos_iff.mpr ⟨item, hmem, by simpa using hq⟩
  have hload := h.load
  have hroom : md.inflightQuota < md.inflightMaximum := by
    rw [h.maximum]
    unfold MsgData.load at hload
    omega
  unfold MsgData.incrementQuota
  rw [if_pos hroom]
  refine h.edit rfl ?_ (fun a ha => .of_mem ha) fun a ha => .of_mem ha
  show md.inflightQuota + 1 + md.flying12 = n + 1
  unfold MsgData.load at hload
  omega

theorem flows_balanced (hn : n ≠ 0) (b : Nat) : Flows (Balanced n b) where
  maximum h := by
    rw [h.maximum]
    exact hn
  queued hf h := by
    refine h.edit rfl h.load (fun a ha => ?_) fun a ha => ?_
    · rcases MsgData.mem_all.mp ha with ha | ha | ha
      · exact .of_mem (MsgData.mem_all.mpr (.inl ha))
      · exact (from_updateAt hf ha).mono fun c hc => MsgData.mem_all.mpr (.inr (.inl hc))
      · exact .of_mem (MsgData.mem_all.mpr (.inr (.inr ha)))
    · rcases List.mem_append.mp ha with ha | ha
      · exact (from_updateAt hf ha).mono (List.subset_append_left _ _)
      · exact .of_mem (List.mem_append_right _ ha)
  storage hf h := by
    refine h.edit rfl h.load (fun a ha => ?_) fun a ha => ?_
    · rcases MsgData.mem_all.mp ha with ha | ha | ha
      · exact .of_mem (MsgData.mem_all.mpr (.inl ha))
      · exact .of_mem (MsgData.mem_all.mpr (.inr (.inl ha)))
      · exact (from_updateAt hf ha).mono fun c hc => MsgData.mem_all.mpr (.inr (.inr hc))
    · rcases List.mem_append.mp ha with ha | ha
      · exact .of_mem (List.mem_append_left _ ha)
      · exact (from_updateAt hf ha).mono (List.subset_append_right _ _)
  dequeue hq h := h.dequeueFirst hq
  destorage c hq h := h.destorageFirst c hq

/-- The network drops no message of QoS > 0 for its size. -/
def Net.Takes12 (net : Net) : Prop := ∀ msg : ClientMsg, msg.qos ≠ .q0 → ¬ Oversized net msg

theorem kept_balanced {net : Net} (hn : n ≠ 0) (hnet : net.Takes12) :
    Kept net (Balanced n n) where
  toFlows := flows_balanced hn n
  write {md addr f} hf h := by
    have hload : (md.write addr f).load = md.load := by
      unfold MsgData.load MsgData.flying12 MsgData.write
      simp only [countP_updateAt hf.writes]
    refine h.edit rfl (hload.trans h.load) (fun a ha => ?_) fun a ha => .of_mem ha
    rcases MsgData.mem_all.mp ha with ha | ha
    · exact (from_updateAt hf ha).mono fun c hc => MsgData.mem_all.mpr (.inl hc)
    · exact .of_mem (MsgData.mem_all.mpr (.inr ha))
  gone {md item} hnd hmem hwhy h := by
    have hall : item ∈ md.all := MsgData.mem_all.mpr (.inl hmem)
    have h0 : item.qos = .q0 := by
      rcases hwhy with hs | hdir | h0 | hbig
      · exact h.qos0 item hall hs
      · exact absurd (h.outward item hall) hdir
      · exact h0
      · by_contra h0
        exact hnet item h0 hbig
    have hgone := h.remove hnd hmem
    rwa [if_neg (not_not.mpr h0)] at hgone
  expired hnd hmem hq h := by
    have hinc := h.incrementQuota hmem hq
    rw [← MsgData.incrementQuota_inflight] at hnd hmem
    have hgone := hinc.remove hnd hmem
    rwa [if_pos hq] at hgone

/-- The loop over the queue fills the window from `i` on, and finds it free. -/
theorem Balanced.deleteOutgoingLoop (now : Int) (l : List ClientMsg) (i : Nat) (hn : n ≠ 0)
    (h : Balanced n n md) (hfit : i < n → md.inflight.length + min l.length (n - i) ≤ n) :
    Balanced n n (deleteOutgoingLoop now l i md) := by
  induction l generalizing i md with
  | nil => exact h
  | cons msg rest ih =>
    unfold Db.deleteOutgoingLoop
    split
    · exact h
    · rename_i hstop
      rw [h.maximum] at hstop
      have hi : i < n := by
        by_contra hi
        exact hstop ⟨hn, not_lt.mp hi⟩
      have hlen := hfit hi
      rw [List.length_cons] at hlen
      have hflying : md.flying12 ≤ md.inflight.length := List.countP_le_length
      have hload := h.load
      unfold MsgData.load at hload
      have hquota : md.inflightQuota ≠ 0 := by omega
      refine ih (i + 1) (((flows_balanced hn n).queued marks_restamp h).dequeueFirst hquota)
        fun _ => ?_
      refine (Nat.add_le_add_right (dequeueFirst_window _).2.1 _).trans ?_
      show md.inflight.length + 1 + min rest.length (n - (i + 1)) ≤ n
      omega

end Edits

/-! ## Inserting -/

section Insert

variable {n : Nat} {md : MsgData} {msg : ClientMsg} {qos : Qos}

/-- A message that is not to fly is of QoS > 0 and finds the quota used up. -/
theorem Balanced.insert (h : Balanced n n md) (hdir : msg.direction = .mdOut)
    (h0 : msg.state = .publishQos0 → msg.qos = .q0)
    (hwait : msg.state = .queued ∨ msg.state = .storage → msg.qos ≠ .q0 ∧ md.inflightQuota = 0)
    (hfly : ¬ (msg.state = .queued ∨ msg.state = .storage) → msg.qos ≠ .q0 →
      md.inflightQuota ≠ 0) : Balanced n n (md.insert msg qos) := by
  obtain ⟨hin, hqueued, hstorage⟩ := insert_lists md msg qos
  obtain ⟨hmax, hquota⟩ := insert_window md msg qos
  have hall : ∀ a ∈ (md.insert msg qos).all, a ∈ md.all ∨ a = msg := by
    intro a ha
    rcases MsgData.mem_all.mp ha with ha | ha | ha
    · rw [hin] at ha
      split at ha
      · exact .inl (MsgData.mem_all.mpr (.inl ha))
      · exact (List.mem_append.mp ha).imp (fun ha => MsgData.mem_all.mpr (.inl ha))
          List.mem_singleton.mp
    · rw [hqueued] at ha
      split at ha
      · exact (List.mem_append.mp ha).imp (fun ha => MsgData.mem_all.mpr (.inr (.inl ha)))
          List.mem_singleton.mp
      · exact .inl (MsgData.mem_all.mpr (.inr (.inl ha)))
    · rw [hstorage] at ha
      split at ha
      · exact (List.mem_append.mp ha).imp (fun ha => MsgData.mem_all.mpr (.inr (.inr ha)))
          List.mem_singleton.mp
      · exact .inl (MsgData.mem_all.mpr (.inr (.inr ha)))
  have hload := h.load
  unfold MsgData.load MsgData.flying12 at hload
  refine ⟨hmax.trans h.maximum, ?_, fun a ha => ?_, fun a ha hs => ?_, fun a ha => ?_⟩
  · unfold MsgData.load MsgData.flying12
    rw [hquota, hin]
    by_cases hs : msg.state = .queued ∨ msg.state = .storage
    · rw [if_pos hs, (hwait hs).2]
      rw [(hwait hs).2] at hload
      omega
    · rw [if_neg hs, List.countP_append]
      by_cases hq : msg.qos = .q0
      · simpa [hq] using hload
      · have hroom := hfly hs hq
        simp [hq]
        simp only [ne_eq, decide_not] at hload
        omega
  · rcases hall a ha with ha | rfl
    · exact h.outward a ha
    · exact hdir
  · rcases hall a ha with ha | rfl
    · exact h.qos0 a ha hs
    · exact h0 hs
  · rw [hqueued, hstorage] at ha
    rcases List.mem_append.mp ha with ha | ha
    · split at ha
      · rename_i hs
        rcases List.mem_append.mp ha with ha | ha
        · exact h.waiting a (List.mem_append_left _ ha)
        · rw [List.mem_singleton.mp ha]
          exact (hwait (.inl hs)).1
      · exact h.waiting a (List.mem_append_left _ ha)
    · split at ha
      · rename_i hs
        rcases List.mem_append.mp ha with ha | ha
        · exact h.waiting a (List.mem_append_right _ ha)
        · rw [List.mem_singleton.mp ha]
          exact (hwait (.inr hs)).1
      · exact h.waiting a (List.mem_append_right _ ha)

end Insert

/-! ## Runs -/

/-- `db__message_insert` keeps the message of a connected client, but not in flight. -/
def Deferred (m : Machine) (qos : Qos) (stored : MsgStore) : Prop :=
  Withheld m stored ∨ qos ≠ .q0 ∧ readyForFlight m.db.config m.ctx .mdOut qos = false ∧
    readyForQueue m.db.config m.ctx qos m.ctx.msgsOut = true

/-- The client is connected and the network drops no message of QoS > 0. A message kept out
of flight is of QoS > 0 and finds the quota used up. A PUBACK or PUBCOMP is of a message in
flight, and the queue fits behind it. No PUBREC refuses a message. -/
def Step.Conserving (s : Step) : Prop :=
  s.net.Takes12 ∧ match s.event with
    | .insert _ qos retain stored _ _ => s.before.ctx.sock ≠ none ∧
        ∀ id, s.before.ctx.id = some id →
          insertRefused .mdOut qos retain stored id s.before = none →
          Deferred s.before qos stored → Qos.min qos s.before.ctx.maxQos ≠ .q0 ∧
            s.before.ctx.msgsOut.inflightQuota = 0
    | .ack type p => s.before.Heeds p → ∃ mid tail, Acks s.before type p mid tail ∧
        (takeSample type (s.before.onMsgs .mdOut (·.incrementQuota))).2.ctx.msgsOut.Fits mid
    | .pubrec p => ∀ mid reasonCode tail,
        readPubrec s.before.ctx.protocol p = .ok (mid, reasonCode) → ¬ reasonCode < 0x80 →
        s.before.ctx.msgsOut.inflight.find? (·.mid = mid) = some tail → tail.qos = .q2 →
        tail.state ≠ .waitForPubrec
    | _ => True

/-- The invariant of the quota. -/
structure Solvent (n : Nat) (m : Machine) : Prop where
  sound : Sound .mdOut m
  balanced : Balanced n n m.ctx.msgsOut

section Run

variable {n : Nat} {m : Machine} {net : Net}

theorem readyForFlight_quota {config : Config} {ctx : Context} {qos : Qos}
    (hmax : ctx.msgsOut.inflightMaximum ≠ 0) (hq : qos ≠ .q0)
    (h : readyForFlight config ctx .mdOut qos = true) : ctx.msgsOut.inflightQuota ≠ 0 := by
  have hpos : 0 < ctx.msgsOut.inflightQuota := by
    by_cases hb : config.maxInflightBytes = 0
    · simpa [readyForFlight, Context.msgs, hmax, hb, hq] using h
    · simp [readyForFlight, Context.msgs, hmax, hb, hq] at h
      exact h.2
  omega

theorem publishState_qos0 {qos : Qos} (h : publishState qos = .publishQos0) : qos = .q0 := by
  cases qos <;> simp_all [publishState]

theorem publishState_flight (qos : Qos) :
    ¬ (publishState qos = .queued ∨ publishState qos = .storage) := by
  cases qos <;> simp [publishState]

theorem Solvent.messageInsert (hn : n ≠ 0) (h : Solvent n m) {mid : UInt16} {qos : Qos}
    {retain : Bool} {stored : MsgStore} {properties : List Property} {update : Bool}
    (hok : Step.Conserving ⟨m, net, .insert mid qos retain stored properties update⟩) :
    Balanced n n
      (messageInsert net mid .mdOut qos retain stored properties update m).2.ctx.msgsOut := by
  obtain ⟨hnet, hsock, hdeferred⟩ := hok
  refine (kept_balanced hn hnet).messageInsert h.sound mid qos retain stored properties update
    h.balanced fun id state rc m₁ msg hid hrefused hstate hf hnew => ?_
  have hmaxQos : m₁.ctx.maxQos = m.ctx.maxQos := Context.of_core (·.maxQos) (fun _ => rfl) hf.core
  have hqos : msg.qos = Qos.min qos m.ctx.maxQos := hmaxQos ▸ hnew.qos
  have hmax : m.ctx.msgsOut.inflightMaximum ≠ 0 := by rw [h.balanced.maximum]; exact hn
  have hlater := hdeferred id hid hrefused
  rw [← hqos] at hlater
  rcases insertState_cases hstate with ⟨rfl, hw⟩ | ⟨rfl, -, -, hready⟩ | ⟨rfl, -, hroom, hfull⟩
  · have hs := hnew.state
    refine h.balanced.insert hnew.direction (fun h0 => ?_) (fun _ => hlater (.inl hw))
      fun hne => absurd (.inr hs) hne
    exact nomatch hs.symm.trans h0
  · have hs := hnew.state
    refine h.balanced.insert hnew.direction (fun h0 => ?_) (fun hwait => ?_) fun _ h0 => ?_
    · rw [hqos, publishState_qos0 (hs.symm.trans h0)]
      cases m.ctx.maxQos <;> rfl
    · rw [hs] at hwait
      exact absurd hwait (publishState_flight qos)
    · exact readyForFlight_quota hmax (Qos.min_ne_q0 (hqos ▸ h0)) hready
  · have hs := hnew.state
    obtain ⟨h0, hnot⟩ := hfull hsock
    refine h.balanced.insert hnew.direction (fun h0 => ?_)
      (fun _ => hlater (.inr ⟨h0, hnot, hroom⟩)) fun hne => absurd (.inl hs) hne
    exact nomatch hs.symm.trans h0

theorem Solvent.handlePubackcomp (hn : n ≠ 0) (h : Solvent n m) {type : AckType} {p : AckPacket}
    (hok : Step.Conserving ⟨m, net, .ack type p⟩) :
    Balanced n n (handlePubackcomp net type p m).2.ctx.msgsOut := by
  obtain ⟨hnet, hack⟩ := hok
  unfold Db.handlePubackcomp
  split
  · exact h.balanced
  · rename_i hactive
    split
    · exact h.balanced
    · obtain ⟨mid, tail, ⟨hread, hfind, hq, hstate⟩, hfit⟩ := hack ⟨not_not.mp hactive, by tauto⟩
      have hprot : (m.onMsgs .mdOut (·.incrementQuota)).ctx.protocol = m.ctx.protocol := rfl
      have hq0 : tail.qos ≠ .q0 := by
        rw [hq]
        cases type <;> exact (nomatch ·)
      simp only [hprot, hread]
      -- the place is given back, the sample taken, and then the message removed
      set m₁ := m.onMsgs .mdOut (·.incrementQuota) with hm₁
      have hb₁ : Balanced n (n + 1) m₁.ctx.msgsOut :=
        h.balanced.incrementQuota (List.mem_of_find?_eq_some hfind) hq0
      have hb₂ := (flows_balanced hn (n + 1)).takeSample type hb₁
      have hs₂ : Sound .mdOut (takeSample type m₁).2 := by
        have hinc : Steps (loose net) m m₁ := steps_shuffle trivial (Shuffle.incrementQuota _)
        exact sound_steps h.sound (hinc.trans (steps_takeSample trivial type (nomatch ·)))
      have hfind₂ : (takeSample type m₁).2.ctx.msgsOut.inflight.find? (·.mid = mid) = some tail := by
        obtain ⟨new, hnew⟩ := takeSample_inflight type m₁
        have hin : m₁.ctx.msgsOut.inflight = m.ctx.msgsOut.inflight :=
          MsgData.incrementQuota_inflight _
        rw [hnew, hin, List.find?_append, hfind]
        rfl
      have hdel : Balanced n n (messageDeleteOutgoing net mid .waitForPubcomp type.qos
          (takeSample type m₁).2).2.ctx.msgsOut := by
        refine (kept_balanced hn hnet).messageDeleteOutgoing hs₂ mid .waitForPubcomp type.qos
          (fun hnone => ?_) (fun tail' hsome hbad => ?_) fun tail' hsome _ _ => ?_
        · exact nomatch hfind₂.symm.trans hnone
        · cases hfind₂.symm.trans hsome
          rcases hbad with hbad | hbad
          · exact absurd hq hbad
          · exact absurd (hstate hbad.1) hbad.2
        · cases hfind₂.symm.trans hsome
          have hmem := List.mem_of_find?_eq_some hfind₂
          have hgone := hb₂.remove hs₂.nodup_inflight hmem
          rw [if_pos hq0] at hgone
          have hidx : (takeSample type m₁).2.ctx.msgsOut.inflight.findIdx (·.mid = mid) <
              (takeSample type m₁).2.ctx.msgsOut.inflight.length :=
            List.findIdx_lt_length_of_exists ⟨tail, hmem, by simpa using List.find?_some hfind₂⟩
          refine hgone.deleteOutgoingLoop _ _ _ hn fun hi => ?_
          rw [length_eraseP_addr hmem]
          have hmax := hb₂.maximum
          rcases hfit with hfit | hfit <;> omega
      unfold Db.acknowledge
      simp only [takeSample_rc, ne_eq, not_true, if_false]
      split <;> exact hdel

theorem Solvent.handlePubrec (hn : n ≠ 0) (h : Solvent n m) {p : AckPacket}
    (hok : Step.Conserving ⟨m, net, .pubrec p⟩) :
    Balanced n n (handlePubrec net p m).2.ctx.msgsOut := by
  obtain ⟨hnet, hrefuses⟩ := hok
  have hk := kept_balanced hn hnet
  unfold Db.handlePubrec
  split
  · exact h.balanced
  · split
    · exact h.balanced
    · rename_i mid reasonCode hread
      simp only
      split
      · have hup : Balanced n n (messageUpdateOutgoing mid .waitForPubcomp .q2 m).2.ctx.msgsOut :=
          hk.messageUpdateOutgoing mid .q2 rfl h.balanced
        split
        · exact hup
        · exact hup
      · rename_i hcode
        refine hk.messageDeleteOutgoing h.sound mid .waitForPubrec .q2 (fun _ => ?_)
          (fun _ _ _ => h.balanced) fun tail hfind hq hstate => ?_
        · exact h.balanced.deleteOutgoingLoop _ _ _ hn fun hi => by omega
        · exact absurd (hstate rfl) (hrefuses mid reasonCode tail hread hcode hfind hq)

theorem solvent_step (hn : n ≠ 0) (s : Step) (hok : s.Conserving) (h : Solvent n s.before) :
    Solvent n s.after := by
  obtain ⟨m, net, t⟩ := s
  have hk := kept_balanced hn hok.1
  have hr : Ready (loose net) m := ⟨h.sound, (nomatch ·)⟩
  have ht : (loose net).touch .mdOut := trivial
  have hsteps : ∀ {m'}, Steps (loose net) m m' → Balanced n n m'.ctx.msgsOut → Solvent n m' :=
    fun hm hb => ⟨sound_steps h.sound hm, hb⟩
  cases t with
  | insert mid qos retain stored properties update =>
    exact hsteps (steps_messageInsert ht hr trivial mid qos retain properties update (nomatch ·))
      (h.messageInsert hn hok)
  | writeQueuedOut =>
    exact hsteps (steps_messageWriteQueuedOut ht m) (hk.messageWriteQueuedOut h.balanced)
  | writeStorageOut =>
    exact hsteps (steps_messageWriteStorageOut ht m) (hk.messageWriteStorageOut h.balanced)
  | writeInflightOutLatest =>
    exact hsteps (steps_messageWriteInflightOutLatest ht hr)
      (hk.written.messageWriteInflightOutLatest h.sound h.balanced)
  | writeInflightOutAll =>
    exact hsteps (steps_messageWriteInflightOutAll ht hr)
      (hk.written.messageWriteInflightOutAll h.sound h.balanced)
  | ack type p =>
    exact hsteps (steps_handlePubackcomp ht hr type p (nomatch ·)) (h.handlePubackcomp hn hok)
  | pubrec p => exact hsteps (steps_handlePubrec ht hr p) (h.handlePubrec hn hok)
  | between db ctx =>
    refine ⟨⟨h.sound.nodup, fun a ha => ?_⟩, h.balanced⟩
    exact (h.sound.fresh a ha).trans_le (Nat.le_add_right _ _)

theorem solvent_start (h : Clear m) (hmax : m.ctx.msgsOut.inflightMaximum = n)
    (hquota : m.ctx.msgsOut.inflightQuota = n) : Solvent n m := by
  have hlists := h.1
  simp only [MsgData.all, List.append_eq_nil_iff] at hlists
  refine ⟨((clear_spec h).1 (loose Net.taking)).sound, hmax, ?_, ?_, ?_, ?_⟩
  · unfold MsgData.load MsgData.flying12
    rw [hlists.1.1, hquota]
    rfl
  · rw [h.1]
    exact fun a ha => absurd ha List.not_mem_nil
  · rw [h.1]
    exact fun a ha => absurd ha List.not_mem_nil
  · rw [hlists.1.2, hlists.2]
    exact fun a ha => absurd ha List.not_mem_nil

/-- **The quota is what the window has free** as long as every step conserves it. -/
theorem quota_conserved {m₀ : Machine} {steps : List Step} (hn : 0 < n) (h₀ : Clear m₀)
    (hmax : m₀.ctx.msgsOut.inflightMaximum = n) (hquota : m₀.ctx.msgsOut.inflightQuota = n)
    (h : History Step.Conserving m₀ steps m) :
    (m.ctx.msgsOut.inflightQuota : Int) = max 0 ((n : Int) - m.ctx.msgsOut.flying12) := by
  have hn := Nat.pos_iff_ne_zero.mp hn
  have hsolvent : Solvent n m := h.keep (solvent_start h₀ hmax hquota) (solvent_step hn)
  have hload := hsolvent.balanced.load
  unfold MsgData.load at hload
  omega

end Run

theorem sendMapped_taking (p : Publish) (m : Machine) :
    (sendMapped Net.taking p m).1 = Rc.success := by
  have hremap : (if m.ctx.bridge.isSome then Net.taking.remap m.db m.ctx p.topic else none) =
      none := by
    split <;> rfl
  unfold sendMapped
  rw [hremap]
  rfl

theorem sendPublish_taking (p : Publish) (m : Machine) :
    (sendPublish Net.taking p m).1 ≠ Rc.oversizePacket := by
  unfold sendPublish
  split
  · exact (nomatch ·)
  · simp only
    split
    · rw [sendMapped_taking]
      exact (nomatch ·)
    · split
      · rw [sendMapped_taking]
        exact (nomatch ·)
      · exact (nomatch ·)

theorem takes12_taking : Net.taking.Takes12 := by
  rintro msg - ⟨m, p, -, -, -, h⟩
  exact sendPublish_taking p m h

/-- A message is sent and acknowledged. -/
theorem quota_conserved_puback :
    let m := (Traffic.ack .puback (.puback 1)).exec Net.taking (Machine.sending [1])
    Clear Machine.idleTwo ∧ m.ctx.journal.length = 2 ∧
      (m.ctx.msgsOut.inflightQuota : Int) = max 0 (((2 : Nat) : Int) - m.ctx.msgsOut.flying12) := by
  have h₀ : Clear Machine.idleTwo := ⟨rfl, rfl, rfl⟩
  have hinsert : Step.Conserving ⟨Machine.idleTwo, Net.taking, .insertByte 1⟩ := by
    refine ⟨takes12_taking, Option.some_ne_none 3, fun id _ _ hlater => ?_⟩
    rcases hlater with ⟨-, -, hslow, -⟩ | ⟨-, hfull, -⟩
    · exact nomatch hslow
    · exact nomatch hfull
  have hack : Step.Conserving ⟨Machine.sending [1], Net.taking, .ack .puback (.puback 1)⟩ :=
    ⟨takes12_taking, fun _ => ⟨1, _, ⟨rfl, rfl, rfl, (nomatch ·)⟩, .inl rfl⟩⟩
  have hrun := (History.start.next Net.taking _ hinsert).next Net.taking _ hack
  exact ⟨h₀, rfl, quota_conserved (Nat.succ_pos 1) h₀ rfl rfl hrun⟩

/-- **A place is lost.** A message is put into storage, and nothing is in flight. -/
theorem quota_lost :
    FullQuota 1 Machine.idleSlow ∧ ¬ ∀ m, Runs Traffic.Answers Machine.idleSlow m →
      (m.ctx.msgsOut.inflightQuota : Int) = max 0 (((1 : Nat) : Int) - m.ctx.msgsOut.flying12) := by
  refine ⟨⟨⟨rfl, rfl, rfl⟩, rfl, rfl, rfl⟩, fun hall => ?_⟩
  have hrun := runs_sending Traffic.Answers (fun _ _ => trivial) [1]
    (Runs.start : Runs Traffic.Answers Machine.idleSlow _)
  exact absurd (hall _ hrun) (by decide)

end AdaptiveMqtt.Db
