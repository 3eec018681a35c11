import AdaptiveMqtt.Db.Ack
import AdaptiveMqtt.Db.Conserve

/-!
# Invariants of the outgoing lists

`Micro` forgets the order of the lists and the quota. Here is what remains to be said once
and for all about a property `P` of `msgs_out`: if the edits that the writing functions make
keep it (`Kept`), the functions do. The edits are a write through a pointer, a message that
leaves, and the head of a list that moves on; `Wrote` says which of them
`db__message_write_inflight_out_single` makes, and when.
-/

namespace AdaptiveMqtt.Db

/-! ## One message -/

/-- The client takes no packet of this size: `send__publish` says so for the message. -/
def Oversized (net : Net) (msg : ClientMsg) : Prop :=
  ∃ (m : Machine) (p : Publish), p.mid = msg.mid ∧ p.store = msg.store ∧ p.qos = msg.qos ∧
    (sendPublish net p m).1 = Rc.oversizePacket

/-- The message has outlived its expiry interval. -/
def ClientMsg.Expired (msg : ClientMsg) (now : Int) : Prop :=
  msg.store.messageExpiryTime ≠ 0 ∧ now > msg.store.messageExpiryTime

def ClientMsg.sentAs (t : Int) (s : MsgState) (a : ClientMsg) : ClientMsg :=
  { a with timestamp := t, dup := true, state := s }

/-- Write through a pointer to a message in flight. -/
def MsgData.write (md : MsgData) (addr : Nat) (f : ClientMsg → ClientMsg) : MsgData :=
  { md with inflight := updateAt addr f md.inflight }

/-- What `db__message_write_inflight_out_single` does to the lists. -/
inductive Wrote (net : Net) (now : Int) (msg : ClientMsg) (md : MsgData) : MsgData → Prop where
  | idle : Wrote net now msg md md
  | sent (t : Int) (s : MsgState) (hs : msg.state = .publishQos1 ∧ s = .waitForPuback ∨
      msg.state = .publishQos2 ∧ s = .waitForPubrec) :
    Wrote net now msg md (md.write msg.addr (ClientMsg.sentAs t s))
  | resent (hs : msg.state = .resendPubrel) :
    Wrote net now msg md (md.write msg.addr fun a => { a with state := .waitForPubcomp })
  | done (hs : msg.state = .publishQos0) : Wrote net now msg md (md.remove msg)
  | oversize (hs : MsgState.isPublish msg.state = true) (h : Oversized net msg) :
    Wrote net now msg md (md.remove msg)
  | expired (h : msg.Expired now) : Wrote net now msg md
      ((if msg.direction = .mdOut ∧ msg.qos ≠ .q0 then md.incrementQuota else md).remove msg)

section Single

variable (net : Net) {m : Machine}

theorem sendPublish_msgsOut (p : Publish) (m : Machine) :
    (sendPublish net p m).2.ctx.msgsOut = m.ctx.msgsOut := by
  have hmapped : ∀ q : Publish, (sendMapped net q m).2.ctx.msgsOut = m.ctx.msgsOut := by
    intro q
    unfold sendMapped
    split
    · rfl
    · rfl
    · exact (frame_stampSendTime (R := loose net) q.topic m).msgsOut
  unfold sendPublish
  split
  · rfl
  · simp only
    split
    · exact hmapped _
    · split
      · exact hmapped _
      · rfl

theorem wrote_single (msg : ClientMsg) (m : Machine) : Wrote net m.db.nowRealS msg m.ctx.msgsOut
    (messageWriteInflightOutSingle net msg m).2.ctx.msgsOut := by
  have hpublish : ∀ (p : Publish) (next : Option MsgState), p.mid = msg.mid → p.store = msg.store →
      p.qos = msg.qos → MsgState.isPublish msg.state = true →
      (next = none → msg.state = .publishQos0) →
      (∀ s, next = some s → msg.state = .publishQos1 ∧ s = .waitForPuback ∨
        msg.state = .publishQos2 ∧ s = .waitForPubrec) →
      Wrote net m.db.nowRealS msg m.ctx.msgsOut
        (afterPublish msg next (sendPublish net p m)).2.ctx.msgsOut := by
    intro p next hmid hstore hqos hpub hnone hsome
    have hlists := sendPublish_msgsOut net p m
    have hgone : ∀ e, (removeOut msg e (sendPublish net p m).2).ctx.msgsOut =
        m.ctx.msgsOut.remove msg := by
      intro e
      show (sendPublish net p m).2.ctx.msgsOut.remove msg = _
      rw [hlists]
    unfold afterPublish
    split
    · cases next with
      | none =>
        simp only [hgone]
        exact .done (hnone rfl)
      | some s =>
        show Wrote net _ msg _ ((sendPublish net p m).2.ctx.msgsOut.write _ (ClientMsg.sentAs _ s))
        rw [hlists]
        exact .sent _ s (hsome s rfl)
    · split
      · rename_i hrc
        simp only [hgone]
        exact .oversize hpub ⟨m, p, hmid, hstore, hqos, hrc⟩
      · rw [hlists]
        exact .idle
  unfold messageWriteInflightOutSingle
  simp only
  split
  · rename_i hexp
    have hwrote := @Wrote.expired net _ _ m.ctx.msgsOut hexp
    split
    · rename_i hq
      rw [if_pos hq] at hwrote
      exact hwrote
    · rename_i hq
      rw [if_neg hq] at hwrote
      exact hwrote
  · split
    · rename_i hs
      exact hpublish _ _ rfl rfl rfl (by rw [hs]; rfl) (fun _ => hs) (fun _ h => nomatch h)
    · rename_i hs
      exact hpublish _ _ rfl rfl rfl (by rw [hs]; rfl) (fun h => nomatch h)
        (fun s h => by cases h; exact .inl ⟨hs, rfl⟩)
    · rename_i hs
      exact hpublish _ _ rfl rfl rfl (by rw [hs]; rfl) (fun h => nomatch h)
        (fun s h => by cases h; exact .inr ⟨hs, rfl⟩)
    · rename_i hs
      split
      · exact .resent hs
      · exact .idle
    · exact .idle

end Single

/-! ## The writing functions -/

theorem decrementQuota_quota (md : MsgData) : md.decrementQuota.inflightMaximum =
    md.inflightMaximum ∧ md.decrementQuota.inflightQuota = md.inflightQuota - 1 := by
  unfold MsgData.decrementQuota
  split
  · exact ⟨rfl, rfl⟩
  · exact ⟨rfl, by omega⟩

theorem decrementQuota_fields (md : MsgData) : md.decrementQuota.inflight = md.inflight ∧
    md.decrementQuota.queued = md.queued ∧ md.decrementQuota.storage = md.storage ∧
    md.decrementQuota.inflightMaximum = md.inflightMaximum := by
  unfold MsgData.decrementQuota
  split <;> exact ⟨rfl, rfl, rfl, rfl⟩

/-- A write that leaves the message in a state that fits it. -/
structure Marks (f : ClientMsg → ClientMsg) : Prop where
  key : ∀ msg, (f msg).key = msg.key
  stateOk : ∀ msg, (f msg).StateOk

theorem Marks.writes {f : ClientMsg → ClientMsg} (h : Marks f) : Writes f :=
  ⟨h.key, fun msg _ => h.stateOk msg⟩

theorem Marks.addr {f : ClientMsg → ClientMsg} (h : Marks f) (msg : ClientMsg) :
    (f msg).addr = msg.addr := by
  rw [← ClientMsg.key_addr, h.key, ClientMsg.key_addr]

theorem ClientMsg.stateOk_of_not {msg : ClientMsg} (h : MsgState.isPublish msg.state = false) :
    msg.StateOk := fun hp => absurd (h.symm.trans hp) (by simp)

theorem marks_toPublish : Marks ClientMsg.toPublish :=
  ⟨fun _ => rfl, ClientMsg.stateOk_toPublish⟩

theorem marks_restamp {now : Int} :
    Marks fun msg : ClientMsg => { msg.toPublish with timestamp := now } :=
  ⟨fun _ => rfl, fun _ _ => rfl⟩

/-- The moves from list to list keep `P`. -/
structure Flows (P : MsgData → Prop) : Prop where
  maximum : ∀ {md}, P md → md.inflightMaximum ≠ 0
  queued : ∀ {md addr f}, Marks f → P md → P { md with queued := updateAt addr f md.queued }
  storage : ∀ {md addr f}, Marks f → P md → P { md with storage := updateAt addr f md.storage }
  dequeue : ∀ {md}, md.inflightQuota ≠ 0 → P md → P md.dequeueFirst
  destorage : ∀ {md} b, (b = true → md.inflightQuota ≠ 0) → P md → P (md.destorageFirst b)

/-- The edits of the writing functions keep `P`. A message that leaves without a place being
given back is of QoS 0, or was oversize. -/
structure Kept (net : Net) (P : MsgData → Prop) : Prop extends Flows P where
  write : ∀ {md addr f}, Marks f → P md → P (md.write addr f)
  gone : ∀ {md item}, (md.inflight.map (·.addr)).Nodup → item ∈ md.inflight →
    item.state = .publishQos0 ∨ item.direction ≠ .mdOut ∨ item.qos = .q0 ∨ Oversized net item →
    P md → P (md.remove item)
  expired : ∀ {md item}, (md.inflight.map (·.addr)).Nodup → item ∈ md.inflight →
    item.qos ≠ .q0 → P md → P (md.incrementQuota.remove item)

theorem mem_updateAt_of_ne {addr : Nat} {f : ClientMsg → ClientMsg} {l : List ClientMsg}
    {a : ClientMsg} (ha : a ∈ l) (hne : a.addr ≠ addr) : a ∈ updateAt addr f l :=
  List.mem_map.mpr ⟨a, ha, if_neg hne⟩

theorem MsgData.remove_inflight_eq (md : MsgData) (item : ClientMsg) :
    (md.remove item).inflight = md.inflight.eraseP (·.addr = item.addr) := by
  unfold MsgData.remove
  split <;> rfl

theorem MsgData.incrementQuota_inflight (md : MsgData) :
    md.incrementQuota.inflight = md.inflight := by
  unfold MsgData.incrementQuota
  split <;> rfl

theorem mem_remove_of_ne {md : MsgData} {item a : ClientMsg} (ha : a ∈ md.inflight)
    (hne : a.addr ≠ item.addr) : a ∈ (md.remove item).inflight := by
  rw [MsgData.remove_inflight_eq]
  exact (List.mem_eraseP_of_neg (by simpa using hne)).mpr ha

/-- The other messages in flight stay as they are. -/
theorem Wrote.mem_of_ne {net : Net} {now : Int} {msg a : ClientMsg} {md md' : MsgData}
    (h : Wrote net now msg md md') (ha : a ∈ md.inflight) (hne : a.addr ≠ msg.addr) :
    a ∈ md'.inflight := by
  cases h with
  | idle => exact ha
  | sent t s hs => exact mem_updateAt_of_ne ha hne
  | resent hs => exact mem_updateAt_of_ne ha hne
  | done hs => exact mem_remove_of_ne ha hne
  | oversize hs h => exact mem_remove_of_ne ha hne
  | expired h =>
    refine mem_remove_of_ne ?_ hne
    split
    · rw [MsgData.incrementQuota_inflight]
      exact ha
    · exact ha

/-- The writes of `db__message_write_inflight_out_single` keep `P`. -/
def Written (net : Net) (P : MsgData → Prop) : Prop :=
  ∀ (now : Int) (msg : ClientMsg) (md md' : MsgData), (md.inflight.map (·.addr)).Nodup →
    msg ∈ md.inflight → Wrote net now msg md md' → P md → P md'

section Kept

variable {net : Net} {P : MsgData → Prop} {m : Machine}

theorem Kept.written (hk : Kept net P) : Written net P := by
  intro now msg md md' hnd hmem h hp
  cases h with
  | idle => exact hp
  | sent t s hs =>
    have hpub : MsgState.isPublish s = false := by
      rcases hs with ⟨-, rfl⟩ | ⟨-, rfl⟩ <;> rfl
    exact hk.write ⟨fun _ => rfl, fun _ => ClientMsg.stateOk_of_not hpub⟩ hp
  | resent hs => exact hk.write ⟨fun _ => rfl, fun _ => ClientMsg.stateOk_of_not rfl⟩ hp
  | done hs => exact hk.gone hnd hmem (.inl hs) hp
  | oversize hs h => exact hk.gone hnd hmem (.inr (.inr (.inr h))) hp
  | expired h =>
    split
    · rename_i hq
      exact hk.expired hnd hmem hq.2 hp
    · rename_i hq
      refine hk.gone hnd hmem (.inr ?_) hp
      by_cases hdir : msg.direction = .mdOut
      · exact .inr (.inl (not_not.mp fun h0 => hq ⟨hdir, h0⟩))
      · exact .inl hdir

theorem Written.writeInflightLoop (hw : Written net P) {l : List ClientMsg} (hs : Sound .mdOut m)
    (hnd : (l.map (·.addr)).Nodup) (hmem : ∀ a ∈ l, a ∈ m.ctx.msgsOut.inflight)
    (hp : P m.ctx.msgsOut) : P (writeInflightLoop net l m).2.ctx.msgsOut := by
  induction l generalizing m with
  | nil => exact hp
  | cons msg rest ih =>
    rw [List.map_cons, List.nodup_cons] at hnd
    have hhead := hmem msg List.mem_cons_self
    have hone := wrote_single net msg m
    have hsteps : Steps (loose net) m (messageWriteInflightOutSingle net msg m).2 :=
      (writing_single (R := loose net) trivial (List.mem_map.mpr ⟨msg, hhead, rfl⟩) (nomatch ·)).1
    have hp' := hw _ msg _ _ hs.nodup_inflight hhead hone hp
    unfold Db.writeInflightLoop
    simp only
    split
    · exact hp'
    · refine ih (sound_steps hs hsteps) hnd.2 (fun a ha => ?_) hp'
      refine hone.mem_of_ne (hmem a (List.mem_cons_of_mem msg ha)) fun he => hnd.1 ?_
      exact List.mem_map.mpr ⟨a, ha, he⟩

theorem Written.messageWriteInflightOutLatest (hw : Written net P) (hs : Sound .mdOut m)
    (hp : P m.ctx.msgsOut) : P (messageWriteInflightOutLatest net m).2.ctx.msgsOut := by
  unfold Db.messageWriteInflightOutLatest
  split
  · exact hp
  · have hsub := latestFrom_sublist m.ctx.msgsOut.inflight
    exact hw.writeInflightLoop hs (hs.nodup_inflight.sublist (hsub.map _))
      (fun a ha => hsub.subset ha) hp

theorem Written.messageWriteInflightOutAll (hw : Written net P) (hs : Sound .mdOut m)
    (hp : P m.ctx.msgsOut) : P (messageWriteInflightOutAll net m).2.ctx.msgsOut := by
  unfold Db.messageWriteInflightOutAll
  split
  · exact hp
  · exact hw.writeInflightLoop hs hs.nodup_inflight (fun a ha => ha) hp

theorem Flows.writeQueuedLoop (hk : Flows P) (l : List ClientMsg) {md : MsgData} (hp : P md) :
    P (writeQueuedLoop l md) := by
  induction l generalizing md with
  | nil => exact hp
  | cons msg rest ih =>
    unfold Db.writeQueuedLoop
    split
    · exact hp
    · rename_i hroom
      exact ih (hk.dequeue (fun h0 => hroom ⟨hk.maximum hp, h0⟩)
        (hk.queued marks_toPublish hp))

theorem Flows.messageWriteQueuedOut (hk : Flows P) (hp : P m.ctx.msgsOut) :
    P (messageWriteQueuedOut m).2.ctx.msgsOut := by
  unfold Db.messageWriteQueuedOut
  split
  · exact hp
  · exact hk.writeQueuedLoop _ hp

theorem Flows.writeStorageLoop (hk : Flows P) (now timeout : Int) (mode : TransferMode)
    (l : List ClientMsg) {md : MsgData} (hp : P md) :
    P (writeStorageLoop now timeout mode l md) := by
  induction l generalizing md with
  | nil => exact hp
  | cons msg rest ih =>
    unfold Db.writeStorageLoop
    simp only
    split
    · split
      · exact ih (hk.destorage false (absurd · Bool.false_ne_true) hp)
      · rename_i hroom
        exact ih (hk.destorage true (fun _ h0 => hroom ⟨hk.maximum hp, h0⟩)
          (hk.storage marks_toPublish hp))
    · exact ih hp

theorem Flows.messageWriteStorageOut (hk : Flows P) (hp : P m.ctx.msgsOut) :
    P (messageWriteStorageOut m).2.ctx.msgsOut := by
  unfold Db.messageWriteStorageOut
  split
  · exact hp
  · exact hk.writeStorageLoop _ _ _ _ hp

theorem Flows.takeSample (hk : Flows P) (type : AckType) (hp : P m.ctx.msgsOut) :
    P (takeSample type m).2.ctx.msgsOut := by
  have hrec : Frame (loose Net.taking) m (recordLatency m) := frame_recordLatency (nomatch ·)
  unfold Db.takeSample
  split
  · have hstore : P (Db.messageWriteStorageOut (recordLatency m)).2.ctx.msgsOut :=
      hk.messageWriteStorageOut (by rw [hrec.msgsOut]; exact hp)
    simp only
    split
    · exact hstore
    · exact hstore
  · exact hp

theorem Kept.messageUpdateOutgoing (hk : Kept net P) (mid : UInt16) {state : MsgState} (qos : Qos)
    (hs : MsgState.isPublish state = false) (hp : P m.ctx.msgsOut) :
    P (messageUpdateOutgoing mid state qos m).2.ctx.msgsOut := by
  unfold Db.messageUpdateOutgoing
  split
  · exact hp
  · split
    · exact hp
    · exact hk.write ⟨fun _ => rfl, fun _ => ClientMsg.stateOk_of_not hs⟩ hp

end Kept

/-! ## Inserting -/

/-- The lists with a message that was inserted at `qos`. -/
def MsgData.insert (md : MsgData) (msg : ClientMsg) (qos : Qos) : MsgData :=
  let md := (md.place msg).count msg qos
  if msg.qos ≠ .q0 then md.decrementQuota else md

theorem insert_lists (md : MsgData) (msg : ClientMsg) (qos : Qos) :
    (md.insert msg qos).inflight =
      (if msg.state = .queued ∨ msg.state = .storage then md.inflight else md.inflight ++ [msg]) ∧
    (md.insert msg qos).queued =
      (if msg.state = .queued then md.queued ++ [msg] else md.queued) ∧
    (md.insert msg qos).storage =
      (if msg.state = .storage then md.storage ++ [msg] else md.storage) := by
  have hplace : ((md.place msg).count msg qos).inflight = (md.place msg).inflight ∧
      ((md.place msg).count msg qos).queued = (md.place msg).queued ∧
      ((md.place msg).count msg qos).storage = (md.place msg).storage := by
    unfold MsgData.count
    simp only
    split <;> exact ⟨rfl, rfl, rfl⟩
  have hlists : (md.insert msg qos).inflight = (md.place msg).inflight ∧
      (md.insert msg qos).queued = (md.place msg).queued ∧
      (md.insert msg qos).storage = (md.place msg).storage := by
    unfold MsgData.insert
    simp only
    split
    · obtain ⟨h1, h2, h3, -⟩ := decrementQuota_fields ((md.place msg).count msg qos)
      rw [h1, h2, h3]
      exact hplace
    · exact hplace
  rw [hlists.1, hlists.2.1, hlists.2.2]
  unfold MsgData.place
  split
  · rename_i hs
    simp [hs]
  · rename_i hs
    simp [hs]
  · rename_i h1 h2
    rw [if_neg (not_or.mpr ⟨h1, h2⟩), if_neg h1, if_neg h2]
    exact ⟨rfl, rfl, rfl⟩

/-- A message as `db__message_insert` allocates it. -/
structure NewMsg (m : Machine) (i : UInt16) (q : Qos) (stored : MsgStore) (s : MsgState)
    (msg : ClientMsg) : Prop where
  addr : msg.addr = m.db.nextMsg
  store : msg.store = stored
  mid : msg.mid = i
  qos : msg.qos = Qos.min q m.ctx.maxQos
  direction : msg.direction = .mdOut
  state : msg.state = s
  dup : msg.dup = false
  storageTime : s = .storage → msg.storageTime = m.db.read.1.sec

/-- `db__message_insert` withholds the message from the client, which is in slow mode. -/
def Withheld (m : Machine) (stored : MsgStore) : Prop :=
  m.ctx.sock ≠ none ∧ stored.payloadlen ≥ m.db.config.thresholdS ∧
    (leaveSlowMode m).ctx.mode = .slowMode ∧ stored.topic ≠ ascii "latency"

section Insert

variable {net : Net} {P : MsgData → Prop} {m : Machine}

theorem Qos.min_ne_q0 {a b : Qos} (h : Qos.min a b ≠ .q0) : a ≠ .q0 := by
  rintro rfl
  exact h (by cases b <;> rfl)

theorem leaveSlowMode_config (m : Machine) : (leaveSlowMode m).db.config = m.db.config := by
  unfold leaveSlowMode
  simp only
  split <;> rfl

theorem leaveSlowMode_ready (config : Config) (m : Machine) (dir : Direction) (qos : Qos)
    (md : MsgData) :
    readyForFlight config (leaveSlowMode m).ctx dir qos = readyForFlight config m.ctx dir qos ∧
    readyForQueue config (leaveSlowMode m).ctx qos md = readyForQueue config m.ctx qos md := by
  unfold leaveSlowMode Context.setMode
  simp only
  split
  · split
    · cases dir <;> exact ⟨rfl, rfl⟩
    · exact ⟨rfl, rfl⟩
  · exact ⟨rfl, rfl⟩

/-- Where `db__message_insert` puts an outgoing message, and why. -/
theorem insertState_cases {qos : Qos} {stored : MsgStore} {m₁ : Machine} {state : MsgState}
    {rc : Rc} (h : insertState .mdOut qos stored m = (.ok (state, rc), m₁)) :
    state = .storage ∧ Withheld m stored ∨
    state = publishState qos ∧ ¬ Withheld m stored ∧ m.ctx.sock ≠ none ∧
      readyForFlight m.db.config m.ctx .mdOut qos = true ∨
    state = .queued ∧ ¬ Withheld m stored ∧
      readyForQueue m.db.config m.ctx qos m.ctx.msgsOut = true ∧
      (m.ctx.sock ≠ none → qos ≠ .q0 ∧ readyForFlight m.db.config m.ctx .mdOut qos = false) := by
  obtain ⟨hflight, hqueue⟩ := leaveSlowMode_ready m.db.config m .mdOut qos m.ctx.msgsOut
  have hmsgs : m.ctx.msgs .mdOut = m.ctx.msgsOut := rfl
  unfold insertState at h
  simp only [hmsgs, hflight, hqueue, leaveSlowMode_config] at h
  split at h
  · rename_i hsock
    split at h
    · rename_i hslow
      cases h
      exact .inl ⟨rfl, hsock, hslow⟩
    · rename_i hslow
      have hfree : ¬ Withheld m stored := fun hw => hslow hw.2
      split at h
      · rename_i hready
        cases h
        exact .inr (.inl ⟨rfl, hfree, hsock, hready⟩)
      · rename_i hready
        split at h
        · rename_i hroom
          cases h
          exact .inr (.inr ⟨rfl, hfree, hroom.2, fun _ => ⟨hroom.1, by simpa using hready⟩⟩)
        · cases h
  · rename_i hsock
    split at h
    · rename_i hroom
      cases h
      exact .inr (.inr ⟨rfl, fun hw => hsock hw.1, hroom, fun hs => absurd hs hsock⟩)
    · cases h

theorem insert_msgsOut (mid : UInt16) (qos : Qos) (retain : Bool) (stored : MsgStore)
    (properties : List Property) (state : MsgState) (id : Bytes) (m : Machine) :
    ∃ msg, NewMsg m mid qos stored state msg ∧ (insertAfter .mdOut qos retain stored id
      (insertMsg mid .mdOut qos retain stored properties state m)).ctx.msgsOut =
        m.ctx.msgsOut.insert msg qos := by
  let newMsg := fun t : Int => ClientMsg.mk m.db.nextMsg stored properties m.db.nowS mid
    (Qos.min qos m.ctx.maxQos) retain .mdOut state false t
  obtain ⟨t, ht, hmd, hmaxQos⟩ : ∃ t : Int, (state = .storage → t = m.db.read.1.sec) ∧
      (insertMsg mid .mdOut qos retain stored properties state m).ctx.msgsOut =
        (m.ctx.msgsOut.place (newMsg t)).count (newMsg t) qos ∧
      (insertMsg mid .mdOut qos retain stored properties state m).ctx.maxQos = m.ctx.maxQos := by
    by_cases hst : state = .storage
    · subst hst
      exact ⟨_, fun _ => rfl, rfl, rfl⟩
    · refine ⟨0, fun h => absurd h hst, ?_⟩
      unfold insertMsg
      simp only [hst, if_false]
      exact ⟨rfl, rfl⟩
  refine ⟨newMsg t, ⟨rfl, rfl, rfl, rfl, rfl, rfl, rfl, ht⟩, ?_⟩
  have hlazy : Frame (loose Net.taking) _ (wakeLazyBridge (noteDestId .mdOut retain stored id
      (insertMsg mid .mdOut qos retain stored properties state m))) :=
    (frame_noteDestId _ _ _ _ _).trans (frame_wakeLazyBridge _)
  have hq : (wakeLazyBridge (noteDestId .mdOut retain stored id
      (insertMsg mid .mdOut qos retain stored properties state m))).ctx.maxQos = m.ctx.maxQos :=
    (Context.of_core (·.maxQos) (fun _ => rfl) hlazy.core).trans hmaxQos
  unfold insertAfter MsgData.insert
  simp only [true_and, hq]
  by_cases h0 : Qos.min qos m.ctx.maxQos ≠ .q0
  · rw [if_pos h0, if_pos h0, ← hmd]
    show (wakeLazyBridge _).ctx.msgsOut.decrementQuota = _
    rw [hlazy.msgsOut]
  · rw [if_neg h0, if_neg h0, ← hmd]
    exact hlazy.msgsOut

theorem Kept.messageInsert (hk : Kept net P) (hs : Sound .mdOut m) (mid : UInt16) (qos : Qos)
    (retain : Bool) (stored : MsgStore) (properties : List Property) (update : Bool)
    (hp : P m.ctx.msgsOut)
    (hplace : ∀ id state rc m₁ msg, m.ctx.id = some id →
      insertRefused .mdOut qos retain stored id m = none →
      insertState .mdOut qos stored m = (.ok (state, rc), m₁) → Frame (loose net) m m₁ →
      NewMsg m₁ mid qos stored state msg → P (m.ctx.msgsOut.insert msg qos)) :
    P (messageInsert net mid .mdOut qos retain stored properties update m).2.ctx.msgsOut := by
  unfold Db.messageInsert
  split
  · exact hp
  · rename_i id hid
    split
    · exact hp
    · rename_i hrefused
      have hf : Frame (loose net) m (insertState .mdOut qos stored m).2 :=
        frame_insertState _ _ _ _
      split
      · rename_i m₁ heq
        rw [heq] at hf
        show P m₁.ctx.msgsOut
        rw [hf.msgsOut]
        exact hp
      · rename_i state rc m₁ heq
        rw [heq] at hf
        obtain ⟨hmode, hstate⟩ := insertState_ok heq
        have hid₁ : m₁.ctx.id ≠ none := by
          rw [(Context.of_core (·.id) (fun _ => rfl) hf.core).trans hid]
          exact Option.some_ne_none id
        obtain ⟨msg, hnew, hmd⟩ := insert_msgsOut mid qos retain stored properties state id m₁
        have hput : P (insertAfter .mdOut qos retain stored id
            (insertMsg mid .mdOut qos retain stored properties state m₁)).ctx.msgsOut := by
          rw [hmd, hf.msgsOut]
          exact hplace id state rc m₁ msg hid hrefused heq hf hnew
        have hsteps : Steps (loose net) m (insertAfter .mdOut qos retain stored id
            (insertMsg mid .mdOut qos retain stored properties state m₁)) :=
          ((steps_frame hf).trans (steps_insertMsg trivial hid₁ trivial mid retain properties hmode
            (nomatch ·) hstate)).trans (steps_insertAfter trivial qos retain stored id _)
        simp only
        split
        · have hlatest := hk.written.messageWriteInflightOutLatest (sound_steps hs hsteps) hput
          split
          · exact hlatest
          · have hqueued := hk.messageWriteQueuedOut hlatest
            split
            · exact hqueued
            · exact hk.messageWriteStorageOut hqueued
        · exact hput

end Insert

/-! ## Acknowledging -/

/-- `handle__pubackcomp` reads the packet: the client is active and the flags are right. -/
def Machine.Heeds (m : Machine) (p : AckPacket) : Prop :=
  m.ctx.state = .active ∧ (m.ctx.protocol = .mqtt31 ∨ p.command &&& 0x0F = 0)

/-- A PUBACK or PUBCOMP is of the message `tail` in flight. -/
structure Acks (m : Machine) (type : AckType) (p : AckPacket) (mid : UInt16) (tail : ClientMsg) :
    Prop where
  read : readAck type m.ctx.protocol p = .ok mid
  found : m.ctx.msgsOut.inflight.find? (·.mid = mid) = some tail
  qos : tail.qos = type.qos
  state : type.qos = .q2 → tail.state = .waitForPubcomp

section Delete

variable {net : Net} {P : MsgData → Prop} {m : Machine}

theorem writeStorageLoop_inflight (now timeout : Int) (mode : TransferMode) (l : List ClientMsg)
    (md : MsgData) : ∃ new, (writeStorageLoop now timeout mode l md).inflight = md.inflight ++ new := by
  induction l generalizing md with
  | nil => exact ⟨[], (List.append_nil _).symm⟩
  | cons msg rest ih =>
    have hstep : ∀ (md : MsgData) (b : Bool), ∃ new, (md.destorageFirst b).inflight =
        md.inflight ++ new := by
      intro md b
      unfold MsgData.destorageFirst
      split
      · exact ⟨[], (List.append_nil _).symm⟩
      · rename_i msg rest _
        split
        · exact ⟨[], (List.append_nil _).symm⟩
        · refine ⟨[msg], ?_⟩
          unfold MsgData.decrementQuota
          split <;> rfl
    unfold writeStorageLoop
    simp only
    generalize hmd : (if now - msg.storageTime > timeout ∨ mode = .normalMode then _ else md) = md₁
    obtain ⟨new, hnew⟩ : ∃ new, md₁.inflight = md.inflight ++ new := by
      rw [← hmd]
      split
      · split
        · exact hstep md false
        · exact hstep { md with storage := _ } true
      · exact ⟨[], (List.append_nil _).symm⟩
    obtain ⟨new', hnew'⟩ := ih md₁
    exact ⟨new ++ new', by rw [hnew', hnew, List.append_assoc]⟩

/-- A sample only appends to the messages in flight. -/
theorem takeSample_inflight (type : AckType) (m : Machine) :
    ∃ new, (takeSample type m).2.ctx.msgsOut.inflight = m.ctx.msgsOut.inflight ++ new := by
  have hrec : Frame (loose Net.taking) m (recordLatency m) := frame_recordLatency (nomatch ·)
  have hstore : ∃ new, (messageWriteStorageOut (recordLatency m)).2.ctx.msgsOut.inflight =
      m.ctx.msgsOut.inflight ++ new := by
    rw [← hrec.msgsOut]
    unfold messageWriteStorageOut
    split
    · exact ⟨[], (List.append_nil _).symm⟩
    · exact writeStorageLoop_inflight _ _ _ _ _
  unfold takeSample
  split
  · simp only
    split
    · exact hstore
    · exact hstore
  · exact ⟨[], (List.append_nil _).symm⟩

theorem msgStoreRefDec_nowS (s : StoreId) (db : MosquittoDb) :
    (db.msgStoreRefDec s).nowS = db.nowS := by
  unfold MosquittoDb.msgStoreRefDec
  split
  · rfl
  · split <;> rfl

/-- An acknowledgement removes the first message of its mid, and the queue moves up from
the place of that message. -/
theorem Kept.messageDeleteOutgoing (hk : Kept net P) (hs : Sound .mdOut m) (mid : UInt16)
    (expectState : MsgState) (qos : Qos)
    (hnone : m.ctx.msgsOut.inflight.find? (·.mid = mid) = none →
      P (deleteOutgoingLoop m.db.nowS m.ctx.msgsOut.queued m.ctx.msgsOut.inflight.length
        m.ctx.msgsOut))
    (hrefused : ∀ tail, m.ctx.msgsOut.inflight.find? (·.mid = mid) = some tail →
      tail.qos ≠ qos ∨ qos = .q2 ∧ tail.state ≠ expectState → P m.ctx.msgsOut)
    (hsome : ∀ tail, m.ctx.msgsOut.inflight.find? (·.mid = mid) = some tail → tail.qos = qos →
      (qos = .q2 → tail.state = expectState) →
      P (deleteOutgoingLoop m.db.nowS m.ctx.msgsOut.queued
        (m.ctx.msgsOut.inflight.findIdx (·.mid = mid)) (m.ctx.msgsOut.remove tail))) :
    P (messageDeleteOutgoing net mid expectState qos m).2.ctx.msgsOut := by
  have hgo : ∀ (i : Nat) {m' : Machine}, Steps (loose net) m m' →
      P (deleteOutgoingLoop m'.db.nowS m'.ctx.msgsOut.queued i m'.ctx.msgsOut) →
      P (Db.messageWriteInflightOutLatest net
        (m'.onMsgs .mdOut fun md => deleteOutgoingLoop m'.db.nowS md.queued i md)).2.ctx.msgsOut := by
    intro i m' hm hp
    have hmove : Steps (loose net) m (m'.onMsgs .mdOut fun md =>
        deleteOutgoingLoop m'.db.nowS md.queued i md) :=
      hm.trans (steps_shuffle trivial (shuffle_deleteOutgoingLoop _ _ _ _))
    exact hk.written.messageWriteInflightOutLatest (sound_steps hs hmove) hp
  unfold Db.messageDeleteOutgoing
  simp only
  split
  · rename_i hfind
    have hidx : m.ctx.msgsOut.inflight.findIdx (·.mid = mid) = m.ctx.msgsOut.inflight.length :=
      List.findIdx_eq_length.mpr fun a ha => by simpa using List.find?_eq_none.mp hfind a ha
    refine hgo _ .refl ?_
    rw [hidx]
    exact hnone hfind
  · rename_i tail hfind
    have hmem := List.mem_of_find?_eq_some hfind
    split
    · rename_i hq
      exact hrefused tail hfind (.inl hq)
    · rename_i hq
      split
      · rename_i hstate
        exact hrefused tail hfind (.inr hstate)
      · rename_i hstate
        have hqueued : (m.ctx.msgsOut.remove tail).queued = m.ctx.msgsOut.queued := by
          unfold MsgData.remove
          split <;> rfl
        have hgone : Micro (loose net) m (removeOut tail (.acked tail mid expectState qos) m) :=
          .removeOut trivial (List.mem_map.mpr ⟨tail, hmem, rfl⟩) rfl (nomatch ·)
        refine hgo _ (.single hgone) ?_
        have hnow : (removeOut tail (.acked tail mid expectState qos) m).db.nowS = m.db.nowS :=
          msgStoreRefDec_nowS _ _
        rw [hnow]
        show P (deleteOutgoingLoop m.db.nowS (m.ctx.msgsOut.remove tail).queued _ _)
        rw [hqueued]
        refine hsome tail hfind (not_not.mp hq) fun h2 => ?_
        by_contra hne
        exact hstate ⟨h2, hne⟩

end Delete

end AdaptiveMqtt.Db
