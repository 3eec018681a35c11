import AdaptiveMqtt.Db.Flow

/-!
# What a step does, in order

`Micro` says what happens to the messages of a client, but not in which order. An `Act`
says how the three lists change as lists, and which messages it gives to `send__publish`
with success. Every event of `Traffic` is a sequence of acts, so a property of the order in
which messages are kept or sent is proved act by act.
-/

namespace AdaptiveMqtt.Db

/-! ## Messages that are sent -/

/-- The arguments `send__publish` gets for a message. -/
def ClientMsg.publish (msg : ClientMsg) (now : Int) : Publish :=
  let expiry := msg.store.messageExpiryTime
  { mid := msg.mid, topic := msg.store.topic, store := msg.store, qos := msg.qos
    retain := msg.retain, dup := msg.dup, properties := msg.properties
    expiryInterval := if expiry = 0 then 0 else ((expiry - now) % 2 ^ 32).toNat }

section Publishes

variable (net : Net)

/-- `db__message_write_inflight_out_single` publishes the message. -/
def publishesSingle (msg : ClientMsg) (m : Machine) : List ClientMsg :=
  let expiry := msg.store.messageExpiryTime
  if expiry ≠ 0 ∧ m.db.nowRealS > expiry then []
  else if MsgState.isPublish msg.state ∧
      (sendPublish net (msg.publish m.db.nowRealS) m).1 = Rc.success then [msg]
  else []

def publishesLoop : List ClientMsg → Machine → List ClientMsg
  | [], _ => []
  | msg :: rest, m =>
    let r := messageWriteInflightOutSingle net msg m
    publishesSingle net msg m ++ if r.1 ≠ Rc.success then [] else publishesLoop rest r.2

/-- The messages that `db__message_write_inflight_out_all` publishes. -/
def publishesAll (m : Machine) : List ClientMsg :=
  if m.ctx.state ≠ .active ∨ m.ctx.sock = none then []
  else publishesLoop net m.ctx.msgsOut.inflight m

/-- The messages that `db__message_write_inflight_out_latest` publishes. -/
def publishesLatest (m : Machine) : List ClientMsg :=
  if m.ctx.state ≠ .active ∨ m.ctx.sock = none ∨ m.ctx.msgsOut.inflight = [] then []
  else publishesLoop net (latestFrom m.ctx.msgsOut.inflight) m

def publishesInsert (mid : UInt16) (qos : Qos) (retain : Bool) (stored : MsgStore)
    (properties : List Property) (update : Bool) (m : Machine) : List ClientMsg :=
  match m.ctx.id with
  | none => []
  | some id =>
    match insertRefused .mdOut qos retain stored id m with
    | some _ => []
    | none =>
      match insertState .mdOut qos stored m with
      | (.error _, _) => []
      | (.ok (state, _), m) =>
        if update then
          publishesLatest net (insertAfter .mdOut qos retain stored id
            (insertMsg mid .mdOut qos retain stored properties state m))
        else []

def publishesDelete (mid : UInt16) (expectState : MsgState) (qos : Qos) (m : Machine) :
    List ClientMsg :=
  let msgIndex := m.ctx.msgsOut.inflight.findIdx (·.mid = mid)
  let go := fun m : Machine =>
    publishesLatest net
      (m.onMsgs .mdOut fun md => deleteOutgoingLoop m.db.nowS md.queued msgIndex md)
  match m.ctx.msgsOut.inflight.find? (·.mid = mid) with
  | none => go m
  | some tail =>
    if tail.qos ≠ qos then []
    else if qos = .q2 ∧ tail.state ≠ expectState then []
    else go (removeOut tail (.acked tail mid expectState qos) m)

/-- The messages that `handle__pubackcomp` publishes. -/
def publishesAck (type : AckType) (p : AckPacket) (m : Machine) : List ClientMsg :=
  if m.ctx.state ≠ .active then []
  else if m.ctx.protocol ≠ .mqtt31 ∧ p.command &&& 0x0F ≠ 0 then []
  else
    let m := m.onMsgs .mdOut (·.incrementQuota)
    match readAck type m.ctx.protocol p with
    | .error _ => []
    | .ok mid => publishesDelete net mid .waitForPubcomp type.qos (takeSample type m).2

def publishesPubrec (p : AckPacket) (m : Machine) : List ClientMsg :=
  if m.ctx.state ≠ .active then []
  else
    match readPubrec m.ctx.protocol p with
    | .error _ => []
    | .ok (mid, reasonCode) =>
      if reasonCode < 0x80 then [] else publishesDelete net mid .waitForPubrec .q2 m

/-- The messages that an event publishes, in their order. -/
def Traffic.publishes (m : Machine) : Traffic → List ClientMsg
  | insert mid qos retain stored properties update =>
    publishesInsert net mid qos retain stored properties update m
  | writeQueuedOut => []
  | writeStorageOut => []
  | writeInflightOutLatest => publishesLatest net m
  | writeInflightOutAll => publishesAll net m
  | ack type p => publishesAck net type p m
  | pubrec p => publishesPubrec net p m
  | between _ _ => []

end Publishes

/-! ## Acts -/

/-- What no act undoes. -/
structure Around (m m' : Machine) : Prop where
  clock : m'.db.clock = m.db.clock
  tick : m.db.tick ≤ m'.db.tick
  nextMsg : m.db.nextMsg ≤ m'.db.nextMsg
  state : m'.ctx.state = m.ctx.state

/-- Which messages may be placed, which a PUBREC may answer, and which queues a stored
message may overtake. -/
structure Discipline where
  places : ClientMsg → Prop
  marks : ClientMsg → Prop
  overtakes : List ClientMsg → Prop

inductive Act (net : Net) (T : Discipline) : Machine → List ClientMsg → Machine → Prop where
  | still {m m' : Machine} (h : Around m m') (q : Nat)
    (hmd : m'.ctx.msgsOut = { m.ctx.msgsOut with inflightQuota := q }) : Act net T m [] m'
  | place {m m' : Machine} (h : Around m m') {msg : ClientMsg} {qos : Qos}
    (hplace : T.places msg) (haddr : msg.addr = m.db.nextMsg)
    (hnext : msg.addr < m'.db.nextMsg) (hdup : msg.dup = false)
    (hstate : msg.state = .queued ∨ msg.state = .storage ∨ msg.state = publishState qos)
    (htime : msg.state = .storage → ∃ i, m.db.tick ≤ i ∧ i < m'.db.tick ∧
      msg.storageTime = (m.db.clock i).sec)
    (hmd : m'.ctx.msgsOut = m.ctx.msgsOut.insert msg qos) : Act net T m [] m'
  | moveUp {m m' : Machine} (h : Around m m') {f : ClientMsg → ClientMsg} (hf : Marks f)
    (hpub : ∀ a, MsgState.isPublish (f a).state = true) (k : Nat)
    (hmd : m'.ctx.msgsOut = m.ctx.msgsOut.moveUp f k) : Act net T m [] m'
  | release {m m' : Machine} (h : Around m m') (k d : Nat)
    (hover : k ≠ 0 → T.overtakes m.ctx.msgsOut.queued)
    (hmd : m'.ctx.msgsOut = m.ctx.msgsOut.release k d) : Act net T m [] m'
  | leave {m m' : Machine} (h : Around m m') {item : ClientMsg}
    (hmem : item ∈ m.ctx.msgsOut.inflight) (hmd : m'.ctx.msgsOut = m.ctx.msgsOut.remove item) :
    Act net T m [] m'
  | mark {m m' : Machine} (h : Around m m') {item : ClientMsg}
    (hmem : item ∈ m.ctx.msgsOut.inflight) (hmark : T.marks item) (t : Int)
    (hmd : m'.ctx.msgsOut = m.ctx.msgsOut.write item.addr fun a =>
      { a with state := .waitForPubcomp, timestamp := t }) : Act net T m [] m'
  | latest (m : Machine) :
    Act net T m (publishesLatest net m) (messageWriteInflightOutLatest net m).2
  | all (m : Machine) : Act net T m (publishesAll net m) (messageWriteInflightOutAll net m).2

inductive Acts (net : Net) (T : Discipline) : Machine → List ClientMsg → Machine → Prop where
  | refl (m : Machine) : Acts net T m [] m
  | next {m m' m'' : Machine} {l l' : List ClientMsg} (h : Acts net T m l m')
    (ha : Act net T m' l' m'') : Acts net T m (l ++ l') m''

section Acts

variable {net : Net} {T : Discipline} {m m' m'' : Machine} {l l' : List ClientMsg}

theorem Acts.trans (h : Acts net T m l m') (h' : Acts net T m' l' m'') :
    Acts net T m (l ++ l') m'' := by
  induction h' with
  | refl => rwa [List.append_nil]
  | next _ ha ih =>
    rw [← List.append_assoc]
    exact ih.next ha

theorem Act.acts (h : Act net T m l m') : Acts net T m l m' := by
  have hone := (Acts.refl m : Acts net T m [] m).next h
  rwa [List.nil_append] at hone

theorem Acts.mute (h : Acts net T m l m') (ha : Act net T m' [] m'') : Acts net T m l m'' := by
  have hnext := h.next ha
  rwa [List.append_nil] at hnext

theorem Act.before (ha : Act net T m [] m') (h : Acts net T m' l m'') : Acts net T m l m'' := by
  have hall := ha.acts.trans h
  rwa [List.nil_append] at hall

/-- What every act keeps of a machine and of the messages published so far, acts keep. -/
theorem Acts.keep {I : List ClientMsg → Machine → Prop} (h : Acts net T m l m')
    (hact : ∀ {tr m l m'}, Act net T m l m' → I tr m → I (tr ++ l) m') (tr : List ClientMsg)
    (hi : I tr m) : I (tr ++ l) m' := by
  induction h with
  | refl => rwa [List.append_nil]
  | next _ ha ih =>
    rw [← List.append_assoc]
    exact hact ha ih

theorem Around.refl (m : Machine) : Around m m := ⟨rfl, le_rfl, le_rfl, rfl⟩

theorem Around.trans (h : Around m m') (h' : Around m' m'') : Around m m'' :=
  ⟨h'.clock.trans h.clock, h.tick.trans h'.tick, h.nextMsg.trans h'.nextMsg,
    h'.state.trans h.state⟩

end Acts

section Around

variable (net : Net) (m : Machine)

theorem around_sent (r : Rc × Out) : Around m (m.sent r).2 := ⟨rfl, le_rfl, le_rfl, rfl⟩

theorem around_sendCommand (c : Command) : Around m (sendCommand net c m).2 :=
  ⟨rfl, le_rfl, le_rfl, rfl⟩

theorem around_stampSendTime (topic : Bytes) : Around m (stampSendTime topic m) := by
  unfold stampSendTime
  split
  · exact ⟨rfl, Nat.le_succ _, le_rfl, rfl⟩
  · exact .refl m

theorem around_sendMapped (p : Publish) : Around m (sendMapped net p m).2 := by
  unfold sendMapped
  split
  · exact .refl m
  · exact around_sent m _
  · exact (around_stampSendTime m p.topic).trans (around_sent _ _)

theorem around_sendPublish (p : Publish) : Around m (sendPublish net p m).2 := by
  unfold sendPublish
  split
  · exact .refl m
  · simp only
    split
    · exact around_sendMapped net m _
    · split
      · exact around_sendMapped net m _
      · exact .refl m

theorem refDec_clock (s : StoreId) (db : MosquittoDb) :
    (db.msgStoreRefDec s).clock = db.clock ∧ (db.msgStoreRefDec s).tick = db.tick := by
  unfold MosquittoDb.msgStoreRefDec
  split
  · exact ⟨rfl, rfl⟩
  · split <;> exact ⟨rfl, rfl⟩

theorem around_removeOut (msg : ClientMsg) (e : Event) : Around m (removeOut msg e m) := by
  obtain ⟨hclock, htick⟩ := refDec_clock msg.store.addr m.db
  exact ⟨hclock, htick.ge, (refDec_nextMsg _ _).ge, rfl⟩

theorem around_onMsgs (f : MsgData → MsgData) : Around m (m.onMsgs .mdOut f) :=
  ⟨rfl, le_rfl, le_rfl, rfl⟩

theorem around_updateInflight (addr : Nat) (f : ClientMsg → ClientMsg) :
    Around m (m.updateInflight addr f) := around_onMsgs m _

theorem around_afterPublish (msg : ClientMsg) (next : Option MsgState) (r : Rc × Machine) :
    Around r.2 (afterPublish msg next r).2 := by
  unfold afterPublish
  split
  · cases next with
    | none => exact around_removeOut r.2 msg _
    | some s => exact around_updateInflight r.2 _ _
  · split
    · exact around_removeOut r.2 msg _
    · exact .refl r.2

theorem around_single (msg : ClientMsg) :
    Around m (messageWriteInflightOutSingle net msg m).2 := by
  have hpublish : ∀ (p : Publish) (next : Option MsgState),
      Around m (afterPublish msg next (sendPublish net p m)).2 := fun p next =>
    (around_sendPublish net m p).trans (around_afterPublish msg next _)
  unfold messageWriteInflightOutSingle
  simp only
  split
  · split
    · exact (around_onMsgs m _).trans (around_removeOut _ msg _)
    · exact around_removeOut m msg _
  · split
    · exact hpublish _ _
    · exact hpublish _ _
    · exact hpublish _ _
    · split
      · exact (around_sendCommand net m _).trans (around_updateInflight _ _ _)
      · exact around_sendCommand net m _
    · exact .refl m

theorem around_writeInflightLoop (l : List ClientMsg) :
    Around m (writeInflightLoop net l m).2 := by
  induction l generalizing m with
  | nil => exact .refl m
  | cons msg rest ih =>
    unfold writeInflightLoop
    simp only
    split
    · exact around_single net m msg
    · exact (around_single net m msg).trans (ih _)

theorem around_messageWriteInflightOutLatest :
    Around m (messageWriteInflightOutLatest net m).2 := by
  unfold messageWriteInflightOutLatest
  split
  · exact .refl m
  · exact around_writeInflightLoop net m _

theorem around_messageWriteInflightOutAll : Around m (messageWriteInflightOutAll net m).2 := by
  unfold messageWriteInflightOutAll
  split
  · exact .refl m
  · exact around_writeInflightLoop net m _

theorem around_recordLatency : Around m (recordLatency m) := by
  have hstate : (recordLatency m).ctx.state = m.ctx.state := by
    have hf : Frame (loose Net.taking) m (recordLatency m) := frame_recordLatency (nomatch ·)
    exact Context.of_core (·.state) (fun _ => rfl) hf.core
  exact ⟨rfl, Nat.le_add_right _ 2, le_rfl, hstate⟩

theorem around_leaveSlowMode : Around m (leaveSlowMode m) := by
  unfold leaveSlowMode Context.setMode
  simp only
  split
  · split <;> exact ⟨rfl, Nat.le_succ _, le_rfl, rfl⟩
  · exact ⟨rfl, Nat.le_succ _, le_rfl, rfl⟩

theorem around_insertState (qos : Qos) (stored : MsgStore) :
    Around m (insertState .mdOut qos stored m).2 := by
  have hleave := around_leaveSlowMode m
  have hdrop : ∀ m : Machine, Around m { m with ctx := { m.ctx with isDropping := true } } :=
    fun m => ⟨rfl, le_rfl, le_rfl, rfl⟩
  unfold insertState
  simp only
  split
  · split
    · exact hleave
    · split
      · exact hleave
      · split
        · exact hleave
        · exact hleave.trans (hdrop _)
  · split
    · exact .refl m
    · exact hdrop m

theorem around_insertMsg (mid : UInt16) (qos : Qos) (retain : Bool) (stored : MsgStore)
    (properties : List Property) (state : MsgState) :
    Around m (insertMsg mid .mdOut qos retain stored properties state m) := by
  unfold insertMsg
  simp only
  split
  · exact ⟨rfl, Nat.le_succ _, Nat.le_succ _, rfl⟩
  · exact ⟨rfl, le_rfl, Nat.le_succ _, rfl⟩

theorem around_insertAfter (qos : Qos) (retain : Bool) (stored : MsgStore) (id : Bytes) :
    Around m (insertAfter .mdOut qos retain stored id m) := by
  have hnote : Around m (noteDestId .mdOut retain stored id m) := by
    unfold noteDestId
    split
    · exact ⟨rfl, le_rfl, le_rfl, rfl⟩
    · exact .refl m
  have hwake : ∀ m : Machine, Around m (wakeLazyBridge m) := by
    intro m
    unfold wakeLazyBridge
    split
    · split
      · exact ⟨rfl, le_rfl, le_rfl, rfl⟩
      · exact .refl m
    · exact .refl m
  unfold insertAfter
  simp only
  split
  · exact (hnote.trans (hwake _)).trans (around_onMsgs _ _)
  · exact hnote.trans (hwake _)

end Around

/-! ## Clocks and addresses -/

/-- The monotonic clock does not go back, and the stored messages were stamped by it, one
after the other. -/
structure Stamped (m : Machine) : Prop where
  mono : ∀ i j, i ≤ j → (m.db.clock i).sec ≤ (m.db.clock j).sec
  sorted : m.ctx.msgsOut.storage.Pairwise fun a b => a.storageTime ≤ b.storageTime
  past : ∀ a ∈ m.ctx.msgsOut.storage, ∃ i < m.db.tick, a.storageTime = (m.db.clock i).sec

/-- Addresses and stamps are in order. -/
structure Based (m : Machine) : Prop where
  sound : Sound .mdOut m
  stamped : Stamped m

section Based

variable {net : Net} {T : Discipline} {m m' : Machine} {l : List ClientMsg}

theorem Stamped.sublist (h : Stamped m) (hclock : m'.db.clock = m.db.clock)
    (htick : m.db.tick ≤ m'.db.tick)
    (hs : m'.ctx.msgsOut.storage.Sublist m.ctx.msgsOut.storage) : Stamped m' := by
  refine ⟨hclock ▸ h.mono, h.sorted.sublist hs, fun a hmem => ?_⟩
  obtain ⟨i, hi, hsec⟩ := h.past a (hs.subset hmem)
  exact ⟨i, hi.trans_le htick, hclock ▸ hsec⟩

theorem Stamped.append {msg : ClientMsg} {i : Nat} (h : Stamped m) (ha : Around m m')
    (hs : m'.ctx.msgsOut.storage = m.ctx.msgsOut.storage ++ [msg]) (hi : m.db.tick ≤ i)
    (hi' : i < m'.db.tick) (hsec : msg.storageTime = (m.db.clock i).sec) : Stamped m' := by
  refine ⟨ha.clock ▸ h.mono, ?_, fun a hmem => ?_⟩
  · rw [hs]
    refine List.pairwise_append.mpr ⟨h.sorted, List.pairwise_singleton _ _, fun a ha b hb => ?_⟩
    obtain ⟨j, hj, hsec'⟩ := h.past a ha
    rw [List.mem_singleton.mp hb, hsec, hsec']
    exact h.mono j i (hj.le.trans hi)
  · rw [hs] at hmem
    rw [ha.clock]
    rcases List.mem_append.mp hmem with hmem | hmem
    · obtain ⟨j, hj, hsec'⟩ := h.past a hmem
      exact ⟨j, hj.trans_le ha.tick, hsec'⟩
    · rw [List.mem_singleton.mp hmem]
      exact ⟨i, hi', hsec⟩

theorem Stamped.due (h : Stamped m) (now timeout : Int) (mode : TransferMode) :
    m.ctx.msgsOut.storage.Pairwise fun a b =>
      b.Due now timeout mode → a.Due now timeout mode := by
  refine h.sorted.imp fun hle hdue => ?_
  rcases hdue with hdue | hdue
  · refine .inl ?_
    omega
  · exact .inr hdue

theorem sound_of_perm (hs : Sound .mdOut m) (hnext : m.db.nextMsg ≤ m'.db.nextMsg)
    (hkeys : (m'.ctx.msgsOut.all.map ClientMsg.key).Subperm (m.ctx.msgsOut.all.map ClientMsg.key)) :
    Sound .mdOut m' := by
  have hperm : (m'.ctx.msgsOut.all.map (·.addr)).Subperm (m.ctx.msgsOut.all.map (·.addr)) := by
    rw [map_addr_eq, map_addr_eq m.ctx.msgsOut.all]
    obtain ⟨k, hk, hsub⟩ := hkeys
    exact ⟨_, hk.map _, hsub.map _⟩
  refine ⟨?_, fun a ha => ?_⟩
  · obtain ⟨k, hk, hsub⟩ := hperm
    exact hk.nodup_iff.mp (hs.nodup.sublist hsub)
  · obtain ⟨b, hb, he⟩ := List.mem_map.mp (hperm.subset (List.mem_map.mpr ⟨a, ha, rfl⟩))
    exact (congrArg (· < m'.db.nextMsg) he).mp ((hs.fresh b hb).trans_le hnext)

theorem Wrote.waiting {now : Int} {msg : ClientMsg} {md md' : MsgData}
    (h : Wrote net now msg md md') : md'.queued = md.queued ∧ md'.storage = md.storage := by
  have hremove : ∀ md : MsgData, (md.remove msg).queued = md.queued ∧
      (md.remove msg).storage = md.storage := fun md =>
    ⟨(md.remove_window msg).2.1, MsgData.remove_storage md msg⟩
  cases h with
  | idle => exact ⟨rfl, rfl⟩
  | sent t s hs => exact ⟨rfl, rfl⟩
  | resent hs => exact ⟨rfl, rfl⟩
  | done hs => exact hremove md
  | oversize hs h => exact hremove md
  | expired h =>
    split
    · have hinc : md.incrementQuota.queued = md.queued ∧ md.incrementQuota.storage = md.storage := by
        unfold MsgData.incrementQuota
        split <;> exact ⟨rfl, rfl⟩
      exact ⟨(hremove _).1.trans hinc.1, (hremove _).2.trans hinc.2⟩
    · exact hremove md

/-- A writer leaves the queue and storage alone. -/
theorem written_waiting (q s : List ClientMsg) :
    Written net fun md => md.queued = q ∧ md.storage = s := by
  rintro now msg md md' - - h ⟨hq, hs⟩
  exact ⟨h.waiting.1.trans hq, h.waiting.2.trans hs⟩

theorem map_key_write {md : MsgData} {addr : Nat} {f : ClientMsg → ClientMsg}
    (hf : ∀ a, (f a).key = a.key) :
    (md.write addr f).all.map ClientMsg.key = md.all.map ClientMsg.key := by
  have hin : (updateAt addr f md.inflight).map ClientMsg.key = md.inflight.map ClientMsg.key := by
    unfold updateAt
    rw [List.map_map]
    refine List.map_congr_left fun a _ => ?_
    show (if a.addr = addr then f a else a).key = a.key
    split
    · exact hf a
    · rfl
  simp only [MsgData.all, MsgData.write, List.map_append, hin]

theorem moveUp_key {f : ClientMsg → ClientMsg} (hf : Marks f) (k : Nat) (md : MsgData) :
    (md.moveUp f k).all.map ClientMsg.key = md.all.map ClientMsg.key := by
  have hmap : ((md.queued.take k).map f).map ClientMsg.key =
      (md.queued.take k).map ClientMsg.key := by
    rw [List.map_map]
    exact List.map_congr_left fun a _ => hf.key a
  simp only [MsgData.all, MsgData.moveUp, List.map_append, hmap, List.append_assoc]
  rw [← List.append_assoc ((md.queued.take k).map _), ← List.map_append, List.take_append_drop]

theorem release_key (k d : Nat) (md : MsgData) :
    ((md.release k d).all.map ClientMsg.key).Perm (md.all.map ClientMsg.key) := by
  have hmap : ((md.storage.take k).map ClientMsg.toPublish).map ClientMsg.key =
      (md.storage.take k).map ClientMsg.key := by
    rw [List.map_map]
    rfl
  have hsplit : md.storage = md.storage.take k ++ ((md.storage.drop k).take d ++
      md.storage.drop (k + d)) := by
    rw [← List.drop_drop, List.take_append_drop, List.take_append_drop]
  have hall : md.all = md.inflight ++ md.queued ++ (md.storage.take k ++
      ((md.storage.drop k).take d ++ md.storage.drop (k + d))) := by rw [← hsplit]; rfl
  rw [hall]
  simp only [MsgData.all, MsgData.release, List.map_append, hmap]
  rw [List.perm_iff_count]
  intro a
  simp only [List.count_append]
  omega

theorem insert_key (md : MsgData) (msg : ClientMsg) (qos : Qos) :
    ((md.insert msg qos).all.map ClientMsg.key).Perm (msg.key :: md.all.map ClientMsg.key) := by
  have hplace := (MsgData.place_count_all md msg qos).map ClientMsg.key
  unfold MsgData.insert
  simp only
  split
  · exact (Shuffle.decrementQuota _).perm.trans hplace
  · exact hplace

theorem remove_key (md : MsgData) (item : ClientMsg) :
    ((md.remove item).all.map ClientMsg.key).Sublist (md.all.map ClientMsg.key) := by
  rw [MsgData.remove_all, MsgData.all]
  refine List.Sublist.map _ ?_
  exact (List.eraseP_sublist.append_right _).append_right _

/-- A writer adds no message. -/
theorem written_key (l : List ClientMsg) :
    Written net fun md => (md.all.map ClientMsg.key).Sublist l := by
  intro now msg md md' hnd hmem h hsub
  cases h with
  | idle => exact hsub
  | sent t s hs =>
    rw [map_key_write]
    · exact hsub
    · exact fun _ => rfl
  | resent hs =>
    rw [map_key_write]
    · exact hsub
    · exact fun _ => rfl
  | done hs => exact (remove_key md msg).trans hsub
  | oversize hs h => exact (remove_key md msg).trans hsub
  | expired h =>
    refine (remove_key _ msg).trans ?_
    split
    · have hinc : md.incrementQuota.all = md.all := by
        unfold MsgData.incrementQuota
        split <;> rfl
      rwa [hinc]
    · exact hsub

theorem Act.around (h : Act net T m l m') : Around m m' := by
  cases h with
  | still h _ _ | place h _ _ _ _ _ _ _ | moveUp h _ _ _ _ | release h _ _ _ _ | leave h _ _
  | mark h _ _ _ _ => exact h
  | latest => exact around_messageWriteInflightOutLatest net m
  | all => exact around_messageWriteInflightOutAll net m

theorem Acts.around (h : Acts net T m l m') : Around m m' := by
  induction h with
  | refl => exact .refl m
  | next _ ha ih => exact ih.trans ha.around

/-- An act adds no message but the one it places. -/
theorem keys_act (hs : Sound .mdOut m) (h : Act net T m l m') :
    (m'.ctx.msgsOut.all.map ClientMsg.key).Subperm (m.ctx.msgsOut.all.map ClientMsg.key) ∨
      ∃ msg : ClientMsg, T.places msg ∧ msg.addr = m.db.nextMsg ∧ msg.addr < m'.db.nextMsg ∧
        (m'.ctx.msgsOut.all.map ClientMsg.key).Perm
          (msg.key :: m.ctx.msgsOut.all.map ClientMsg.key) := by
  have hkeys := @written_key net (m.ctx.msgsOut.all.map ClientMsg.key)
  cases h with
  | still h q hmd =>
    refine .inl ?_
    rw [hmd]
    exact List.Subperm.refl _
  | @place m' h msg qos hplace haddr hlt hdup hstate htime hmd =>
    refine .inr ⟨msg, hplace, haddr, hlt, ?_⟩
    rw [hmd]
    exact insert_key m.ctx.msgsOut msg qos
  | moveUp h hf hpub k hmd =>
    refine .inl ?_
    rw [hmd, moveUp_key hf]
  | release h k d hover hmd =>
    refine .inl ?_
    rw [hmd]
    exact (release_key k d _).subperm
  | leave h hmem hmd =>
    refine .inl ?_
    rw [hmd]
    exact (remove_key _ _).subperm
  | mark h hmem hmark t hmd =>
    refine .inl ?_
    rw [hmd, map_key_write]
    exact fun _ => rfl
  | latest =>
    exact .inl (hkeys.messageWriteInflightOutLatest hs (List.Sublist.refl _)).subperm
  | all => exact .inl (hkeys.messageWriteInflightOutAll hs (List.Sublist.refl _)).subperm

theorem sound_act (hs : Sound .mdOut m) (h : Act net T m l m') : Sound .mdOut m' := by
  have hnext := h.around.nextMsg
  rcases keys_act hs h with hsub | ⟨msg, -, haddr, hlt, hperm⟩
  · exact sound_of_perm hs hnext hsub
  · replace hperm := hperm.map (·.addr)
    rw [List.map_cons, ← map_addr_eq, ← map_addr_eq] at hperm
    have hfresh : ∀ x ∈ m.ctx.msgsOut.all.map (·.addr), x < m.db.nextMsg := by
      intro x hx
      obtain ⟨a, ha, rfl⟩ := List.mem_map.mp hx
      exact hs.fresh a ha
    refine ⟨hperm.nodup_iff.mpr (List.nodup_cons.mpr ⟨fun hmem => ?_, hs.nodup⟩), fun a ha => ?_⟩
    · exact absurd (hfresh _ hmem) (haddr ▸ lt_irrefl _)
    · rcases List.mem_cons.mp (hperm.subset (List.mem_map.mpr ⟨a, ha, rfl⟩)) with he | he
      · exact (congrArg (· < m'.db.nextMsg) he).mpr hlt
      · exact (hfresh _ he).trans_le hnext

theorem store_of_keys {P : MsgStore → Prop} {l l' : List ClientMsg}
    (hkeys : l.map ClientMsg.key ⊆ l'.map ClientMsg.key) (hp : ∀ b ∈ l', P b.store) :
    ∀ a ∈ l, P a.store := by
  intro a ha
  obtain ⟨b, hb, he⟩ := List.mem_map.mp (hkeys (List.mem_map.mpr ⟨a, ha, rfl⟩))
  have hstore : b.key.store = a.key.store := congrArg ClientMsg.store he
  exact (congrArg P hstore).mp (hp b hb)

/-- What holds of the stores a client may be given holds of those it has. -/
theorem stores_act {P : MsgStore → Prop} (hT : ∀ a, T.places a → P a.store) (hs : Sound .mdOut m)
    (h : Act net T m l m') (hp : ∀ a ∈ m.ctx.msgsOut.all, P a.store) :
    ∀ a ∈ m'.ctx.msgsOut.all, P a.store := by
  rcases keys_act hs h with hsub | ⟨msg, hplace, -, -, hperm⟩
  · exact store_of_keys hsub.subset hp
  · refine @store_of_keys _ _ (msg :: m.ctx.msgsOut.all) hperm.subset fun b hb => ?_
    rcases List.mem_cons.mp hb with rfl | hb
    · exact hT _ hplace
    · exact hp b hb

theorem stamped_act (hs : Sound .mdOut m) (hst : Stamped m) (h : Act net T m l m') :
    Stamped m' := by
  have hsame : m'.ctx.msgsOut.storage = m.ctx.msgsOut.storage → Stamped m' := fun he =>
    hst.sublist h.around.clock h.around.tick (he ▸ List.Sublist.refl _)
  have hwait := @written_waiting net m.ctx.msgsOut.queued m.ctx.msgsOut.storage
  cases h with
  | still h q hmd => exact hsame (by rw [hmd])
  | @place m' h msg qos hplace haddr hlt hdup hstate htime hmd =>
    obtain ⟨-, -, hstorage⟩ := insert_lists m.ctx.msgsOut msg qos
    rw [← hmd] at hstorage
    by_cases hsto : msg.state = .storage
    · obtain ⟨i, hi, hi', hsec⟩ := htime hsto
      rw [if_pos hsto] at hstorage
      exact hst.append h hstorage hi hi' hsec
    · rw [if_neg hsto] at hstorage
      exact hsame hstorage
  | moveUp h hf hpub k hmd => exact hsame (by rw [hmd]; rfl)
  | release h k d hover hmd =>
    refine hst.sublist h.clock h.tick ?_
    rw [hmd]
    exact List.drop_sublist _ _
  | leave h hmem hmd => exact hsame (by rw [hmd, MsgData.remove_storage])
  | mark h hmem hmark t hmd => exact hsame (by rw [hmd]; rfl)
  | latest => exact hsame (hwait.messageWriteInflightOutLatest hs ⟨rfl, rfl⟩).2
  | all => exact hsame (hwait.messageWriteInflightOutAll hs ⟨rfl, rfl⟩).2

theorem based_start (hempty : m.ctx.msgsOut.all = [])
    (hclock : ∀ i j, i ≤ j → (m.db.clock i).sec ≤ (m.db.clock j).sec) : Based m := by
  have hstorage : m.ctx.msgsOut.storage = [] := (List.append_eq_nil_iff.mp hempty).2
  refine ⟨⟨?_, ?_⟩, hclock, ?_, ?_⟩
  · show (m.ctx.msgsOut.all.map _).Nodup
    rw [hempty]
    exact List.nodup_nil
  · show ∀ a ∈ m.ctx.msgsOut.all, _
    rw [hempty]
    exact List.forall_mem_nil _
  · rw [hstorage]
    exact List.Pairwise.nil
  · rw [hstorage]
    exact List.forall_mem_nil _

/-- Nothing else may happen to a machine than that it loses messages. -/
theorem Based.of_keys (hb : Based m) (hclock : m'.db.clock = m.db.clock)
    (htick : m.db.tick ≤ m'.db.tick) (hnext : m.db.nextMsg ≤ m'.db.nextMsg)
    (hkeys : (m'.ctx.msgsOut.all.map ClientMsg.key).Subperm (m.ctx.msgsOut.all.map ClientMsg.key))
    (hstorage : m'.ctx.msgsOut.storage.Sublist m.ctx.msgsOut.storage) : Based m' :=
  ⟨sound_of_perm hb.sound hnext hkeys, hb.stamped.sublist hclock htick hstorage⟩

theorem based_act (hb : Based m) (h : Act net T m l m') : Based m' :=
  ⟨sound_act hb.sound h, stamped_act hb.sound hb.stamped h⟩

theorem based_acts (hb : Based m) (h : Acts net T m l m') : Based m' :=
  h.keep (I := fun _ => Based) (fun ha hb => based_act hb ha) [] hb

end Based

/-! ## Events as acts -/

/-- A stored message would go straight to flight. -/
def Overtaking (m : Machine) : Prop :=
  (m.ctx.msgsOut.inflightMaximum = 0 ∨ m.ctx.msgsOut.inflightQuota ≠ 0) ∧
    ∃ a ∈ m.ctx.msgsOut.storage, a.Due m.db.read.1.sec m.db.config.msgStoreTimeout m.ctx.mode

/-- The event keeps to the discipline: it only places messages it may, a PUBREC without an
error is of a message it may answer, and a flush of storage overtakes only such queues as
it may. -/
def Traffic.Fair (T : Discipline) (m : Machine) : Traffic → Prop
  | insert mid qos retain stored _ _ => ∀ id state rc m₁ msg, m.ctx.id = some id →
      insertRefused .mdOut qos retain stored id m = none →
      insertState .mdOut qos stored m = (.ok (state, rc), m₁) →
      NewMsg m₁ mid qos stored state msg → T.places msg
  | writeStorageOut => m.ctx.state = .active → Overtaking m → T.overtakes m.ctx.msgsOut.queued
  | ack type p => ∀ mid, m.Heeds p → readAck type m.ctx.protocol p = .ok mid →
      m.ctx.sendTime.1 > 0 → type.qos = .q1 →
      Overtaking (recordLatency (m.onMsgs .mdOut (·.incrementQuota))) →
      T.overtakes m.ctx.msgsOut.queued
  | pubrec p => ∀ mid reasonCode tail, m.ctx.state = .active →
      readPubrec m.ctx.protocol p = .ok (mid, reasonCode) → reasonCode < 0x80 →
      m.ctx.msgsOut.inflight.find? (·.mid = mid) = some tail → tail.qos = .q2 → T.marks tail
  | _ => True

def Discipline.free : Discipline := ⟨fun _ => True, fun _ => True, fun _ => True⟩

theorem Traffic.fair_free (t : Traffic) (m : Machine) : t.Fair .free m := by
  cases t <;> simp [Traffic.Fair, Discipline.free]

section Exec

variable {net : Net} {T : Discipline} {m : Machine}

theorem Based.nodup_queued (hb : Based m) : (m.ctx.msgsOut.queued.map (·.addr)).Nodup := by
  refine hb.sound.nodup.sublist (List.Sublist.map _ ?_)
  exact (List.sublist_append_right _ _).trans (List.sublist_append_left _ _)

theorem Based.nodup_storage (hb : Based m) : (m.ctx.msgsOut.storage.map (·.addr)).Nodup :=
  hb.sound.nodup.sublist ((List.sublist_append_right _ _).map _)

theorem publishState_isPublish (qos : Qos) : MsgState.isPublish (publishState qos) = true := by
  cases qos <;> rfl

/-- The queue is empty afterwards, or the quota is used up. -/
theorem acts_messageWriteQueuedOut (hb : Based m) (net : Net) (T : Discipline) :
    Acts net T m [] (messageWriteQueuedOut m).2 ∧ (m.ctx.state = .active →
      (messageWriteQueuedOut m).2.ctx.msgsOut.queued = [] ∨
      (messageWriteQueuedOut m).2.ctx.msgsOut.inflightMaximum ≠ 0 ∧
        (messageWriteQueuedOut m).2.ctx.msgsOut.inflightQuota = 0) := by
  unfold messageWriteQueuedOut
  split
  · rename_i hstate
    exact ⟨.refl m, fun hactive => absurd hactive hstate⟩
  · obtain ⟨k, hk, hstop⟩ := writeQueuedLoop_eq m.ctx.msgsOut.queued m.ctx.msgsOut rfl
      hb.nodup_queued
    have hmd : (m.onMsgs .mdOut fun md => writeQueuedLoop md.queued md).ctx.msgsOut =
        m.ctx.msgsOut.moveUp ClientMsg.toPublish k := hk
    refine ⟨(Act.moveUp (around_onMsgs m _) marks_toPublish (fun a => ?_) k hmd).acts, fun _ => ?_⟩
    · exact publishState_isPublish a.qos
    · rw [hmd]
      rcases hstop with hstop | ⟨hmax, hquota⟩
      · exact .inl (List.drop_eq_nil_of_le hstop)
      · exact .inr ⟨hmax, Nat.sub_eq_zero_of_le hquota⟩

theorem acts_messageWriteStorageOut (hb : Based m) (net : Net)
    (hover : m.ctx.state = .active → Overtaking m → T.overtakes m.ctx.msgsOut.queued) :
    Acts net T m [] (messageWriteStorageOut m).2 := by
  unfold messageWriteStorageOut
  split
  · exact .refl m
  · rename_i hstate
    obtain ⟨k, d, hkd, -, hk, -⟩ := writeStorageLoop_eq m.ctx.msgsOut.storage m.ctx.msgsOut rfl
      hb.nodup_storage (hb.stamped.due m.db.read.1.sec m.db.config.msgStoreTimeout m.ctx.mode)
    refine Act.acts ?_
    refine .release ⟨rfl, Nat.le_succ _, le_rfl, rfl⟩ k d (fun hk0 => ?_) hkd
    exact hover (not_not.mp hstate) (hk hk0)

/-- What follows the placing of a message. -/
theorem acts_flush (hT : T.overtakes []) (hb : Based m) (net : Net) :
    Acts net T m (publishesLatest net m)
      (messageWriteStorageOut (messageWriteQueuedOut (messageWriteInflightOutLatest net m).2).2).2 := by
  have hlatest := (Act.latest m : Act net T m _ _)
  have hb₁ := based_act hb hlatest
  obtain ⟨hqueued, hstop⟩ := acts_messageWriteQueuedOut hb₁ net T
  have hb₂ := based_acts hb₁ hqueued
  have hstate : (messageWriteQueuedOut (messageWriteInflightOutLatest net m).2).2.ctx.state =
      (messageWriteInflightOutLatest net m).2.ctx.state := by
    unfold messageWriteQueuedOut
    split <;> rfl
  have hstorage := acts_messageWriteStorageOut (T := T) hb₂ net fun hactive hover => by
    rcases hstop (hstate ▸ hactive) with hempty | ⟨hmax, hquota⟩
    · rw [hempty]
      exact hT
    · rcases hover.1 with h | h
      · exact absurd h hmax
      · exact absurd hquota h
  have hall := (hlatest.acts.trans hqueued).trans hstorage
  rwa [List.append_nil, List.append_nil] at hall

theorem act_insert {mid : UInt16} {qos : Qos} {retain : Bool} {stored : MsgStore}
    {properties : List Property} {state : MsgState} {rc : Rc} {m₁ : Machine} (id : Bytes)
    (hplace : ∀ msg, NewMsg m₁ mid qos stored state msg → T.places msg)
    (h : insertState .mdOut qos stored m = (.ok (state, rc), m₁)) :
    Act net T m [] (insertAfter .mdOut qos retain stored id
      (insertMsg mid .mdOut qos retain stored properties state m₁)) := by
  have hf : Frame (loose net) m (insertState .mdOut qos stored m).2 := frame_insertState _ _ _ _
  have ha : Around m (insertState .mdOut qos stored m).2 := around_insertState m qos stored
  rw [h] at hf ha
  obtain ⟨msg, hnew, hmd⟩ := insert_msgsOut mid qos retain stored properties state id m₁
  have hin := around_insertMsg m₁ mid qos retain stored properties state
  have hafter := around_insertAfter (insertMsg mid .mdOut qos retain stored properties state m₁) qos
    retain stored id
  have hnext : (insertMsg mid .mdOut qos retain stored properties state m₁).db.nextMsg =
      m₁.db.nextMsg + 1 := by
    unfold insertMsg
    simp only
    split <;> rfl
  have htick : state = .storage → m₁.db.tick <
      (insertMsg mid .mdOut qos retain stored properties state m₁).db.tick := by
    rintro rfl
    exact Nat.lt_succ_self _
  refine @Act.place net T m _ (ha.trans (hin.trans hafter)) msg qos (hplace msg hnew) ?_ ?_
    hnew.dup ?_ (fun hs => ?_) ?_
  · rw [hnew.addr, hf.nextMsg]
  · rw [hnew.addr]
    exact (Nat.lt_of_lt_of_eq (Nat.lt_succ_self _) hnext.symm).trans_le hafter.nextMsg
  · rw [hnew.state]
    rcases insertState_cases h with ⟨hs, -⟩ | ⟨hs, -⟩ | ⟨hs, -⟩
    · exact .inr (.inl hs)
    · exact .inr (.inr hs)
    · exact .inl hs
  · rw [hnew.state] at hs
    refine ⟨m₁.db.tick, ha.tick, (htick hs).trans_le hafter.tick, ?_⟩
    rw [hnew.storageTime hs, ← ha.clock]
    rfl
  · rw [hmd, hf.msgsOut]

theorem acts_messageInsert (hT : T.overtakes []) (hb : Based m) (net : Net) (mid : UInt16)
    (qos : Qos) (retain : Bool) {stored : MsgStore} (properties : List Property) (update : Bool)
    (hfair : (Traffic.insert mid qos retain stored properties update).Fair T m) :
    Acts net T m (publishesInsert net mid qos retain stored properties update m)
      (messageInsert net mid .mdOut qos retain stored properties update m).2 := by
  unfold messageInsert publishesInsert
  cases hid : m.ctx.id with
  | none => exact .refl m
  | some id =>
    simp only
    cases hrefused : insertRefused .mdOut qos retain stored id m with
    | some rc => exact .refl m
    | none =>
      rcases hstate : insertState .mdOut qos stored m with ⟨e, m₁⟩
      cases e with
      | error rc =>
        have hf : Frame (loose net) m (insertState .mdOut qos stored m).2 :=
          frame_insertState _ _ _ _
        have ha := around_insertState m qos stored
        rw [hstate] at hf ha
        exact (Act.still ha _ hf.msgsOut).acts
      | ok r =>
        obtain ⟨state, rc⟩ := r
        have hact : Act net T m [] (insertAfter .mdOut qos retain stored id
          (insertMsg mid .mdOut qos retain stored properties state m₁)) := act_insert id
            (fun msg hnew => hfair id state rc m₁ msg hid hrefused hstate hnew) hstate
        simp only [true_and]
        by_cases hup : update = true
        · have hqueued : ∀ m : Machine, (messageWriteQueuedOut m).1 = Rc.success := by
            intro m
            unfold messageWriteQueuedOut
            split <;> rfl
          simp only [if_pos hup, hqueued, ne_eq, not_true, if_false]
          split
          · exact hact.before (Act.latest _).acts
          · exact hact.before (acts_flush hT (based_act hb hact) net)
        · rw [if_neg hup, if_neg hup]
          exact hact.acts

theorem acts_takeSample (hb : Based m) (net : Net) (type : AckType)
    (hover : m.ctx.state = .active → m.ctx.sendTime.1 > 0 → type.qos = .q1 →
      Overtaking (recordLatency m) → T.overtakes m.ctx.msgsOut.queued) :
    Acts net T m [] (takeSample type m).2 := by
  have hf : Frame (loose net) m (recordLatency m) := frame_recordLatency (nomatch ·)
  have hrec : Act net T m [] (recordLatency m) := .still (around_recordLatency m) _ hf.msgsOut
  unfold takeSample
  split
  · rename_i hsample
    have hstore := acts_messageWriteStorageOut (T := T) (based_act hb hrec) net fun hactive ho => by
      rw [hf.msgsOut]
      exact hover ((around_recordLatency m).state ▸ hactive) hsample.1 hsample.2 ho
    have hall := hrec.before hstore
    simp only
    split
    · exact hall
    · exact hall.mute (.still ⟨rfl, le_rfl, le_rfl, rfl⟩ _ rfl)
  · exact .refl m

theorem acts_messageDeleteOutgoing (hb : Based m) (net : Net) (T : Discipline) (mid : UInt16)
    (expectState : MsgState) (qos : Qos) :
    Acts net T m (publishesDelete net mid expectState qos m)
      (messageDeleteOutgoing net mid expectState qos m).2 := by
  -- the queue moves up, and what came up is sent
  have hgo : ∀ (m' : Machine) (i : Nat), Based m' → Acts net T m' (publishesLatest net
      (m'.onMsgs .mdOut fun md => deleteOutgoingLoop m'.db.nowS md.queued i md))
      (messageWriteInflightOutLatest net
        (m'.onMsgs .mdOut fun md => deleteOutgoingLoop m'.db.nowS md.queued i md)).2 := by
    intro m' i hb'
    obtain ⟨k, hk⟩ := deleteOutgoingLoop_eq m'.db.nowS m'.ctx.msgsOut.queued i m'.ctx.msgsOut rfl
      hb'.nodup_queued
    have hmove : Act net T m' []
        (m'.onMsgs .mdOut fun md => deleteOutgoingLoop m'.db.nowS md.queued i md) :=
      .moveUp (around_onMsgs m' _) marks_restamp (fun a => publishState_isPublish a.qos) k hk
    exact hmove.before (Act.latest _).acts
  unfold messageDeleteOutgoing publishesDelete
  simp only
  cases hfind : m.ctx.msgsOut.inflight.find? (·.mid = mid) with
  | none => exact hgo m _ hb
  | some tail =>
    simp only
    split
    · exact .refl m
    · split
      · exact .refl m
      · have hleave : Act net T m [] (removeOut tail (.acked tail mid expectState qos) m) :=
          .leave (around_removeOut m tail _) (List.mem_of_find?_eq_some hfind) rfl
        exact hleave.before (hgo _ _ (based_act hb hleave))

theorem act_incrementQuota (net : Net) (T : Discipline) (m : Machine) :
    Act net T m [] (m.onMsgs .mdOut (·.incrementQuota)) := by
  refine .still (around_onMsgs m _) m.ctx.msgsOut.incrementQuota.inflightQuota ?_
  show m.ctx.msgsOut.incrementQuota = _
  unfold MsgData.incrementQuota
  split <;> rfl

theorem acts_handlePubackcomp (hb : Based m) (net : Net) {type : AckType} {p : AckPacket}
    (hfair : Traffic.Fair T m (.ack type p)) :
    Acts net T m (publishesAck net type p m) (handlePubackcomp net type p m).2 := by
  unfold handlePubackcomp publishesAck
  split
  · exact .refl m
  · rename_i hactive
    split
    · exact .refl m
    · rename_i hflags
      have hheeds : m.Heeds p := ⟨not_not.mp hactive, by tauto⟩
      have hinc := act_incrementQuota net T m
      have hprot : (m.onMsgs .mdOut (·.incrementQuota)).ctx.protocol = m.ctx.protocol := rfl
      simp only [hprot]
      cases hread : readAck type m.ctx.protocol p with
      | error rc => exact hinc.acts
      | ok mid =>
        have hqueued : m.ctx.msgsOut.incrementQuota.queued = m.ctx.msgsOut.queued := by
          unfold MsgData.incrementQuota
          split <;> rfl
        have hsample := acts_takeSample (T := T) (based_act hb hinc) net type
          fun _ hsend hq ho => by
            show T.overtakes m.ctx.msgsOut.incrementQuota.queued
            rw [hqueued]
            exact hfair mid hheeds hread hsend hq ho
        have hdel := acts_messageDeleteOutgoing (based_acts (based_act hb hinc) hsample) net T mid
          .waitForPubcomp type.qos
        have hall := hinc.before (hsample.trans hdel)
        rw [List.nil_append] at hall
        unfold acknowledge
        simp only [takeSample_rc, ne_eq, not_true, if_false]
        split <;> exact hall

theorem acts_messageUpdateOutgoing (net : Net) {mid : UInt16} {qos : Qos}
    (hmark : ∀ tail, m.ctx.msgsOut.inflight.find? (·.mid = mid) = some tail → tail.qos = qos →
      T.marks tail) :
    Acts net T m [] (messageUpdateOutgoing mid .waitForPubcomp qos m).2 := by
  unfold messageUpdateOutgoing
  cases hfind : m.ctx.msgsOut.inflight.find? (·.mid = mid) with
  | none => exact .refl m
  | some tail =>
    simp only
    split
    · exact .refl m
    · rename_i hq
      exact (Act.mark (around_updateInflight m _ _) (List.mem_of_find?_eq_some hfind)
        (hmark tail hfind (not_not.mp hq)) m.db.nowS rfl).acts

theorem acts_handlePubrec (hb : Based m) (net : Net) {p : AckPacket}
    (hfair : Traffic.Fair T m (.pubrec p)) :
    Acts net T m (publishesPubrec net p m) (handlePubrec net p m).2 := by
  unfold handlePubrec publishesPubrec
  split
  · exact .refl m
  · rename_i hactive
    cases hread : readPubrec m.ctx.protocol p with
    | error rc => exact .refl m
    | ok r =>
      obtain ⟨mid, reasonCode⟩ := r
      simp only
      split
      · rename_i hcode
        have hup : Acts net T m [] (messageUpdateOutgoing mid .waitForPubcomp .q2 m).2 :=
          acts_messageUpdateOutgoing net fun tail hfind hq =>
            hfair mid reasonCode tail (not_not.mp hactive) hread hcode hfind hq
        split
        · exact hup
        · exact hup.mute (.still (around_sendCommand net _ _) _ rfl)
      · exact acts_messageDeleteOutgoing hb net T mid .waitForPubrec .q2

/-- **Every event but an interlude is a sequence of acts**, and they publish what the event
does. -/
theorem acts_exec (hT : T.overtakes []) (hb : Based m) (net : Net) {t : Traffic}
    (hfair : t.Fair T m) (hb' : ∀ db ctx, t ≠ .between db ctx) :
    Acts net T m (t.publishes net m) (t.exec net m) := by
  cases t with
  | insert mid qos retain stored properties update =>
    exact acts_messageInsert hT hb net mid qos retain properties update hfair
  | writeQueuedOut => exact (acts_messageWriteQueuedOut hb net T).1
  | writeStorageOut => exact acts_messageWriteStorageOut hb net hfair
  | writeInflightOutLatest => exact (Act.latest m).acts
  | writeInflightOutAll => exact (Act.all m).acts
  | ack type p => exact acts_handlePubackcomp hb net hfair
  | pubrec p => exact acts_handlePubrec hb net hfair
  | between db ctx => exact absurd rfl (hb' db ctx)

end Exec

end AdaptiveMqtt.Db
