import AdaptiveMqtt.Db.Micro

/-!
# The functions of `database.c` as small steps

One lemma for each function: from a machine with sound addresses it makes small
steps only. A loop that walks a list while it edits it carries the invariant that
the messages still to be visited are listed under their keys.
-/

namespace AdaptiveMqtt.Db

open Lib

section Basics

variable {R : Rules} {m m' : Machine}

theorem steps_frame (h : Frame R m m') : Steps R m m' := .single (.frame h)

theorem steps_shuffle {dir : Direction} {f : MsgData → MsgData} (hdir : R.touch dir)
    (h : Shuffle (m.ctx.msgs dir) (f (m.ctx.msgs dir))) : Steps R m (m.onMsgs dir f) :=
  .single (.shuffle dir hdir h)

theorem frame_read (m : Machine) : Frame R m { m with db := m.db.read.2 } :=
  ⟨rfl, rfl, rfl, rfl, rfl, rfl, rfl, rfl, rfl, fun _ => rfl, .inl rfl⟩

theorem frame_stampSendTime (topic : Bytes) (m : Machine) : Frame R m (stampSendTime topic m) := by
  unfold stampSendTime
  split
  · exact ⟨rfl, rfl, rfl, rfl, rfl, rfl, rfl, rfl, rfl, fun _ => rfl, .inl rfl⟩
  · exact Frame.refl m

structure SameLists (m m' : Machine) : Prop where
  msgsIn : m'.ctx.msgsIn = m.ctx.msgsIn
  msgsOut : m'.ctx.msgsOut = m.ctx.msgsOut
  nextMsg : m'.db.nextMsg = m.db.nextMsg

theorem Frame.sameLists (h : Frame R m m') : SameLists m m' := ⟨h.msgsIn, h.msgsOut, h.nextMsg⟩

/-- Sending makes small steps and leaves the lists alone. -/
structure Sends (R : Rules) (m m' : Machine) : Prop where
  steps : Steps R m m'
  same : SameLists m m'

theorem sends_refl (m : Machine) : Sends R m m := ⟨.refl, rfl, rfl, rfl⟩

theorem sends_sendMapped {p : Publish} (hp : ∃ a ∈ m.ctx.msgsOut.inflight, a.store = p.store) :
    Sends R m (sendMapped R.net p m).2 := by
  unfold sendMapped
  split
  · exact sends_refl m
  · rename_i topic _
    exact ⟨.single (.publish { p with topic } hp), rfl, rfl, rfl⟩
  · have hstamp : Frame R m (stampSendTime p.topic m) := frame_stampSendTime p.topic m
    refine ⟨(steps_frame hstamp).tail (.publish p ?_), hstamp.msgsIn, hstamp.msgsOut, hstamp.nextMsg⟩
    rw [hstamp.msgsOut]
    exact hp

theorem sends_sendPublish {p : Publish} (hp : ∃ a ∈ m.ctx.msgsOut.inflight, a.store = p.store) :
    Sends R m (sendPublish R.net p m).2 := by
  unfold sendPublish
  split
  · exact sends_refl m
  · simp only
    split
    · exact sends_sendMapped hp
    · split
      · exact sends_sendMapped hp
      · exact sends_refl m

theorem sends_sendCommand (c : Command) (m : Machine) : Sends R m (sendCommand R.net c m).2 :=
  ⟨.single (.command c), rfl, rfl, rfl⟩

end Basics

/-! ## Writing out -/

/-- The keys of the messages in flight. -/
abbrev Machine.flying (m : Machine) : List ClientMsg := m.ctx.msgsOut.inflight.map ClientMsg.key

section Write

variable {R : Rules} {m : Machine}

theorem writes_set {t : Int} {d : Bool} {s : MsgState} (hs : MsgState.isPublish s = false) :
    Writes fun msg => { msg with timestamp := t, dup := d, state := s } :=
  ⟨fun _ => rfl, fun msg _ h => absurd (hs.symm.trans h) (by simp)⟩

theorem writes_state {s : MsgState} (hs : MsgState.isPublish s = false) :
    Writes fun msg => { msg with state := s } :=
  ⟨fun _ => rfl, fun msg _ h => absurd (hs.symm.trans h) (by simp)⟩

theorem flying_updateInflight {addr : Nat} {f : ClientMsg → ClientMsg} (hf : Writes f)
    (m : Machine) : (m.updateInflight addr f).flying = m.flying := map_key_updateAt hf

theorem steps_updateInflight (ht : R.touch .mdOut) {addr : Nat} {f : ClientMsg → ClientMsg}
    (hf : Writes f) (m : Machine) : Steps R m (m.updateInflight addr f) :=
  steps_shuffle ht (Shuffle.updateInflight hf _)

theorem flying_removeOut {item y : ClientMsg} {e : Event} (hne : y.addr ≠ item.addr)
    (hy : y.key ∈ m.flying) : y.key ∈ (removeOut item e m).flying := by
  have hlist : (removeOut item e m).ctx.msgsOut.inflight =
      m.ctx.msgsOut.inflight.eraseP (·.addr = item.addr) := by
    show (m.ctx.msgsOut.remove item).inflight = _
    unfold MsgData.remove
    split <;> rfl
  obtain ⟨a, ha, hk⟩ := List.mem_map.mp hy
  refine List.mem_map.mpr ⟨a, ?_, hk⟩
  rw [hlist]
  refine (List.mem_eraseP_of_neg ?_).mpr ha
  have haddr : a.addr = y.addr := congrArg (·.addr) hk
  simpa [haddr] using hne

/-- What a step of a loop over the messages in flight does: small steps, and the
other messages stay in flight. -/
def Writing (R : Rules) (addr : Nat) (m m' : Machine) : Prop :=
  Steps R m m' ∧ ∀ y : ClientMsg, y.addr ≠ addr → y.key ∈ m.flying → y.key ∈ m'.flying

theorem writing_sends {addr : Nat} {m' : Machine} (h : Sends R m m') : Writing R addr m m' := by
  refine ⟨h.steps, fun y _ hy => ?_⟩
  rw [Machine.flying, h.same.msgsOut]
  exact hy

theorem Writing.trans {addr : Nat} {m' m'' : Machine} (h : Writing R addr m m')
    (h' : Writing R addr m' m'') : Writing R addr m m'' :=
  ⟨Relation.ReflTransGen.trans h.1 h'.1, fun y hne hy => h'.2 y hne (h.2 y hne hy)⟩

theorem writing_removeOut (ht : R.touch .mdOut) {item : ClientMsg} {e : Event}
    (hmem : item.key ∈ m.flying) (he : e.removes = some item) (hexact : R.exact = true → e.Legit) :
    Writing R item.addr m (removeOut item e m) :=
  ⟨.single (.removeOut ht hmem he hexact), fun _ hne hy => flying_removeOut hne hy⟩

theorem writing_updateInflight (ht : R.touch .mdOut) {addr addr' : Nat} {f : ClientMsg → ClientMsg}
    (hf : Writes f) (m : Machine) : Writing R addr m (m.updateInflight addr' f) := by
  refine ⟨steps_updateInflight ht hf m, fun y _ hy => ?_⟩
  rw [flying_updateInflight hf]
  exact hy

theorem writing_afterPublish (ht : R.touch .mdOut) {msg : ClientMsg} {next : Option MsgState}
    {r : Rc × Machine} (hr : Sends R m r.2) (hmem : msg.key ∈ m.flying)
    (hnext : ∀ s, next = some s → MsgState.isPublish s = false)
    (hqos : R.exact = true → next = none → msg.qos = .q0) :
    Writing R msg.addr m (afterPublish msg next r).2 := by
  have hmem' : msg.key ∈ r.2.flying := by
    rw [Machine.flying, hr.same.msgsOut]
    exact hmem
  have hsend : Writing R msg.addr m r.2 := writing_sends hr
  unfold afterPublish
  split
  · rename_i hrc
    cases next with
    | none =>
      exact hsend.trans (writing_removeOut ht hmem' rfl fun hx => .inl ⟨hrc, hqos hx rfl⟩)
    | some s => exact hsend.trans (writing_updateInflight ht (writes_set (hnext s rfl)) _)
  · split
    · rename_i hrc
      exact hsend.trans (writing_removeOut ht hmem' rfl fun _ => .inr hrc)
    · exact hsend

theorem flying_incrementQuota (m : Machine) :
    (m.onMsgs .mdOut (·.incrementQuota)).flying = m.flying := by
  show m.ctx.msgsOut.incrementQuota.inflight.map _ = _
  unfold MsgData.incrementQuota
  split <;> rfl

/-- The quota of an expired message is given back before it is removed. -/
theorem writing_expired (ht : R.touch .mdOut) {msg : ClientMsg} (hmem : msg.key ∈ m.flying)
    {e : Event} (he : e.removes = some msg) (hlegit : e.Legit) (c : Prop) [Decidable c] :
    Writing R msg.addr m
      (removeOut msg e (if c then m.onMsgs .mdOut (·.incrementQuota) else m)) := by
  split
  · have hinc : Writing R msg.addr m (m.onMsgs .mdOut (·.incrementQuota)) := by
      refine ⟨steps_shuffle ht (Shuffle.incrementQuota _), fun y _ hy => ?_⟩
      rw [flying_incrementQuota]
      exact hy
    refine hinc.trans (writing_removeOut ht ?_ he fun _ => hlegit)
    rw [flying_incrementQuota]
    exact hmem
  · exact writing_removeOut ht hmem he fun _ => hlegit

theorem writing_single (ht : R.touch .mdOut) {msg : ClientMsg} (hmem : msg.key ∈ m.flying)
    (hok : R.exact = true → msg.StateOk) :
    Writing R msg.addr m (messageWriteInflightOutSingle R.net msg m).2 := by
  unfold messageWriteInflightOutSingle
  simp only
  split
  · rename_i hexp
    refine writing_expired ht hmem rfl ?_ _
    split <;> exact hexp
  · have hlisted : ∃ a ∈ m.ctx.msgsOut.inflight, a.store = msg.store := by
      obtain ⟨a, ha, hk⟩ := List.mem_map.mp hmem
      exact ⟨a, ha, congrArg (·.store) hk⟩
    split
    · rename_i hst
      refine writing_afterPublish ht (sends_sendPublish hlisted) hmem (fun _ h => nomatch h)
        fun hx _ => ?_
      have := hok hx (by rw [hst]; rfl)
      rw [hst] at this
      cases hq : msg.qos <;> rw [hq] at this <;> first | rfl | cases this
    · exact writing_afterPublish ht (sends_sendPublish hlisted) hmem (fun s h => by cases h; rfl)
        fun _ h => nomatch h
    · exact writing_afterPublish ht (sends_sendPublish hlisted) hmem (fun s h => by cases h; rfl)
        fun _ h => nomatch h
    · have hrel : Writing R msg.addr m (sendPubrel R.net msg.mid m).2 :=
        writing_sends (sends_sendCommand _ m)
      split
      · exact hrel.trans (writing_updateInflight ht (writes_state rfl) _)
      · exact hrel
    · exact writing_sends (sends_refl m)

theorem steps_writeInflightLoop (ht : R.touch .mdOut) : ∀ {l : List ClientMsg} {m : Machine},
    (l.map (·.addr)).Nodup → (∀ a ∈ l, a.key ∈ m.flying) →
    (R.exact = true → ∀ a ∈ l, a.StateOk) → Steps R m (writeInflightLoop R.net l m).2 := by
  intro l
  induction l with
  | nil => intro m _ _ _; exact .refl
  | cons msg rest ih =>
    intro m hnd hmem hok
    rw [List.map_cons, List.nodup_cons] at hnd
    obtain ⟨hsteps, hkeep⟩ := writing_single ht (hmem msg List.mem_cons_self)
      fun hx => hok hx msg List.mem_cons_self
    unfold writeInflightLoop
    simp only
    split
    · exact hsteps
    · refine hsteps.trans (ih hnd.2 (fun a ha => ?_) fun hx a ha => ?_)
      · refine hkeep a (fun e => hnd.1 ?_) (hmem a (List.mem_cons_of_mem msg ha))
        exact List.mem_map.mpr ⟨a, ha, e⟩
      · exact hok hx a (List.mem_cons_of_mem msg ha)

/-- The outgoing messages fit their states. -/
def StatesOk (m : Machine) : Prop := ∀ a ∈ m.ctx.msgsOut.all, a.StateOk

theorem Sound.nodup_inflight (hs : Sound .mdOut m) :
    (m.ctx.msgsOut.inflight.map (·.addr)).Nodup := by
  have h := hs.nodup
  rw [Context.msgs, MsgData.all, List.append_assoc, List.map_append] at h
  exact (List.nodup_append.mp h).1

theorem StatesOk.inflight (h : StatesOk m) : ∀ a ∈ m.ctx.msgsOut.inflight, a.StateOk :=
  fun a ha => h a (MsgData.mem_all.mpr (.inl ha))

theorem latestFrom_sublist (l : List ClientMsg) : (latestFrom l).Sublist l := by
  unfold latestFrom
  split
  · exact List.Sublist.refl _
  · rename_i head tail
    split
    · exact List.Sublist.refl _
    · refine List.Sublist.cons head ?_
      rw [← List.reverse_reverse tail]
      exact ((List.takeWhile_sublist _).trans (by simp)).reverse

end Write

/-- `Sound` and, for exact steps, `StatesOk` are what the next call starts from. -/
structure Ready (R : Rules) (m : Machine) : Prop where
  sound : Sound .mdOut m
  states : R.exact = true → StatesOk m

section Latest

variable {R : Rules} {m : Machine}

theorem steps_messageWriteInflightOutLatest (ht : R.touch .mdOut) (h : Ready R m) :
    Steps R m (messageWriteInflightOutLatest R.net m).2 := by
  unfold messageWriteInflightOutLatest
  split
  · exact .refl
  · have hsub := latestFrom_sublist m.ctx.msgsOut.inflight
    refine steps_writeInflightLoop ht (h.sound.nodup_inflight.sublist (hsub.map _)) (fun a ha => ?_)
      fun hx a ha => (h.states hx).inflight a (hsub.subset ha)
    exact List.mem_map.mpr ⟨a, hsub.subset ha, rfl⟩

theorem steps_messageWriteInflightOutAll (ht : R.touch .mdOut) (h : Ready R m) :
    Steps R m (messageWriteInflightOutAll R.net m).2 := by
  unfold messageWriteInflightOutAll
  split
  · exact .refl
  · exact steps_writeInflightLoop ht h.sound.nodup_inflight
      (fun a ha => List.mem_map.mpr ⟨a, ha, rfl⟩) fun hx a ha => (h.states hx).inflight a ha

end Latest

/-! ## Moving messages -/

section Move

variable {R : Rules} {m : Machine}

theorem shuffle_writeQueuedLoop (l : List ClientMsg) (md : MsgData) :
    Shuffle md (writeQueuedLoop l md) := by
  induction l generalizing md with
  | nil => exact Shuffle.refl md
  | cons msg rest ih =>
    unfold writeQueuedLoop
    split
    · exact Shuffle.refl md
    · exact ((Shuffle.updateQueued writes_toPublish md).trans (Shuffle.dequeueFirst _)).trans (ih _)

theorem steps_messageWriteQueuedOut (ht : R.touch .mdOut) (m : Machine) :
    Steps R m (messageWriteQueuedOut m).2 := by
  unfold messageWriteQueuedOut
  split
  · exact .refl
  · exact steps_shuffle ht (shuffle_writeQueuedLoop _ _)

theorem shuffle_writeStorageLoop (now timeout : Int) (mode : TransferMode) (l : List ClientMsg)
    (md : MsgData) : Shuffle md (writeStorageLoop now timeout mode l md) := by
  induction l generalizing md with
  | nil => exact Shuffle.refl md
  | cons msg rest ih =>
    unfold writeStorageLoop
    simp only
    split
    · split
      · exact (Shuffle.destorageFirst md false).trans (ih _)
      · exact ((Shuffle.updateStorage writes_toPublish md).trans
          (Shuffle.destorageFirst _ true)).trans (ih _)
    · exact ih md

theorem steps_messageWriteStorageOut (ht : R.touch .mdOut) (m : Machine) :
    Steps R m (messageWriteStorageOut m).2 := by
  unfold messageWriteStorageOut
  split
  · exact .refl
  · exact (steps_frame (frame_read m)).trans
      (steps_shuffle ht (shuffle_writeStorageLoop _ _ _ _ _))

theorem writes_restamp {now : Int} :
    Writes fun msg => { msg.toPublish with timestamp := now } :=
  ⟨fun _ => rfl, fun _ _ _ => rfl⟩

theorem shuffle_deleteOutgoingLoop (now : Int) (l : List ClientMsg) (i : Nat) (md : MsgData) :
    Shuffle md (deleteOutgoingLoop now l i md) := by
  induction l generalizing i md with
  | nil => exact Shuffle.refl md
  | cons msg rest ih =>
    unfold deleteOutgoingLoop
    split
    · exact Shuffle.refl md
    · exact ((Shuffle.updateQueued writes_restamp md).trans (Shuffle.dequeueFirst _)).trans
        (ih _ _)

end Move

/-! ## Preserved along steps -/

section Preserved

variable {R : Rules} {m m' : Machine}

theorem statesOk_micro (hx : R.exact = true) (hok : StatesOk m) (h : Micro R m m') :
    StatesOk m' := by
  cases h with
  | frame hf =>
    intro a ha
    rw [hf.msgsOut] at ha
    exact hok a ha
  | publish p hp => exact hok
  | command c => exact hok
  | shuffle dir _ hsh =>
    cases dir with
    | mdIn => exact hok
    | mdOut => exact hsh.states hok
  | @place dir msg qos _ _ _ _ _ hexact =>
    cases dir with
    | mdIn => exact hok
    | mdOut =>
      intro a ha
      have hall := MsgData.place_count_all m.ctx.msgsOut msg qos
      rcases List.mem_cons.mp (hall.subset ha) with rfl | ha
      · exact (hexact hx).2
      · exact hok a ha
  | @removeOut item e _ _ _ _ =>
    intro a ha
    change a ∈ (m.ctx.msgsOut.remove item).all at ha
    rw [MsgData.remove_all] at ha
    refine hok a (MsgData.mem_all.mpr ?_)
    simp only [List.mem_append] at ha
    rcases ha with (ha | ha) | ha
    · exact .inl (List.mem_of_mem_eraseP ha)
    · exact .inr (.inl ha)
    · exact .inr (.inr ha)
  | removeIn _ _ => exact hok

theorem Ready.steps (h : Ready R m) (hm : Steps R m m') : Ready R m' :=
  ⟨sound_steps h.sound hm, fun hx => hm.keep (statesOk_micro hx) (h.states hx)⟩

end Preserved

/-! ## Acknowledging and inserting -/

section Calls

variable {R : Rules} {m : Machine}

theorem steps_messageDeleteOutgoing (ht : R.touch .mdOut) (h : Ready R m) (mid : UInt16)
    (expectState : MsgState) (qos : Qos) :
    Steps R m (messageDeleteOutgoing R.net mid expectState qos m).2 := by
  have hgo : ∀ (i : Nat) {m' : Machine}, Steps R m m' → Steps R m
      (messageWriteInflightOutLatest R.net
        (m'.onMsgs .mdOut fun md => deleteOutgoingLoop m'.db.nowS md.queued i md)).2 := by
    intro i m' hm
    have hmove := hm.trans (steps_shuffle ht
      (shuffle_deleteOutgoingLoop m'.db.nowS m'.ctx.msgsOut.queued i m'.ctx.msgsOut))
    exact hmove.trans (steps_messageWriteInflightOutLatest ht (h.steps hmove))
  unfold messageDeleteOutgoing
  simp only
  split
  · exact hgo _ .refl
  · rename_i tail hfind
    have hmem := List.mem_of_find?_eq_some hfind
    have hmid : tail.mid = mid := by simpa using List.find?_some hfind
    split
    · exact .refl
    · rename_i hqos
      split
      · exact .refl
      · rename_i hstate
        refine hgo _ (.single (.removeOut ht (List.mem_map.mpr ⟨tail, hmem, rfl⟩) rfl fun _ => ?_))
        refine ⟨hmid, not_not.mp hqos, fun h2 => ?_⟩
        by_contra hne
        exact hstate ⟨h2, hne⟩

theorem steps_messageUpdateOutgoing (ht : R.touch .mdOut) (m : Machine) (mid : UInt16)
    {state : MsgState} (qos : Qos) (hs : MsgState.isPublish state = false) :
    Steps R m (messageUpdateOutgoing mid state qos m).2 := by
  unfold messageUpdateOutgoing
  split
  · exact .refl
  · split
    · exact .refl
    · have hw : Writes fun msg => { msg with state, timestamp := m.db.nowS } :=
        ⟨fun _ => rfl, fun msg _ hp => absurd (hs.symm.trans hp) (by simp)⟩
      exact steps_updateInflight ht hw m

theorem frame_leaveSlowMode (m : Machine) : Frame R m (leaveSlowMode m) := by
  unfold leaveSlowMode Context.setMode
  simp only
  split
  · split
    · exact ⟨rfl, rfl, rfl, rfl, rfl, rfl, rfl, rfl, rfl, fun _ => rfl, (.inr (.inl rfl))⟩
    · exact frame_read m
  · exact frame_read m

theorem frame_dropping (m : Machine) : Frame R m { m with ctx := { m.ctx with isDropping := true } } :=
  ⟨rfl, rfl, rfl, rfl, rfl, rfl, rfl, rfl, rfl, fun _ => rfl, .inl rfl⟩

theorem frame_insertState (dir : Direction) (qos : Qos) (stored : MsgStore) (m : Machine) :
    Frame R m (insertState dir qos stored m).2 := by
  have h : Frame R m (leaveSlowMode m) := frame_leaveSlowMode m
  unfold insertState
  simp only
  split
  · split
    · exact h
    · split
      · split
        · exact h
        · split <;> exact h
      · split
        · exact h
        · exact h.trans (frame_dropping _)
  · split
    · exact Frame.refl m
    · exact frame_dropping m

/-- A message is stored in slow mode only, and waits for publish at its own QoS. -/
theorem insertState_ok {dir : Direction} {qos : Qos} {stored : MsgStore} {m m' : Machine}
    {state : MsgState} {rc : Rc} (h : insertState dir qos stored m = (.ok (state, rc), m')) :
    (state = .storage → m'.ctx.mode = .slowMode) ∧
    (MsgState.isPublish state = true → state = publishState qos) := by
  unfold insertState at h
  simp only at h
  split at h
  · split at h
    · rename_i hslow
      cases h
      exact ⟨fun _ => hslow.2.1, (nomatch ·)⟩
    · split at h
      · split at h
        · cases h
          exact ⟨by cases qos <;> exact (nomatch ·), fun _ => rfl⟩
        · split at h
          · cases h
            exact ⟨(nomatch ·), (nomatch ·)⟩
          · cases h
      · split at h
        · cases h
          exact ⟨(nomatch ·), (nomatch ·)⟩
        · cases h
  · split at h
    · cases h
      exact ⟨(nomatch ·), (nomatch ·)⟩
    · cases h

/-- `insertMsg` places a new message, after a look at the clock if it is stored. -/
theorem insertMsg_eq (mid : UInt16) (dir : Direction) (qos : Qos) (retain : Bool)
    (stored : MsgStore) (properties : List Property) (state : MsgState) (m : Machine) :
    ∃ (msg : ClientMsg) (m₁ : Machine), Frame R m m₁ ∧ m₁.ctx = m.ctx ∧
      msg.addr = m₁.db.nextMsg ∧ msg.store = stored ∧ msg.state = state ∧
      msg.qos = Qos.min qos m.ctx.maxQos ∧
      insertMsg mid dir qos retain stored properties state m = placeMsg dir msg qos m₁ := by
  let newMsg := fun t : Int => ClientMsg.mk m.db.nextMsg stored properties m.db.nowS mid
    (Qos.min qos m.ctx.maxQos) retain dir state false t
  by_cases hst : state = .storage
  · refine ⟨newMsg m.db.read.1.sec, { m with db := m.db.read.2 }, frame_read m, rfl, rfl, rfl, rfl,
      rfl, ?_⟩
    subst hst
    rfl
  · refine ⟨newMsg 0, m, Frame.refl m, rfl, rfl, rfl, rfl, rfl, ?_⟩
    unfold insertMsg
    simp only [hst, if_false]
    rfl

theorem steps_insertMsg {dir : Direction} (ht : R.touch dir) (hid : m.ctx.id ≠ none)
    {stored : MsgStore} (hlive : R.live stored) (mid : UInt16) {qos : Qos} (retain : Bool)
    (properties : List Property) {state : MsgState}
    (hmode : state = .storage → m.ctx.mode = .slowMode)
    (hexact : R.exact = true → Qos.min qos m.ctx.maxQos = qos)
    (hstate : MsgState.isPublish state = true → state = publishState qos) :
    Steps R m (insertMsg mid dir qos retain stored properties state m) := by
  obtain ⟨msg, m₁, hf, hctx, haddr, hst, hms, hmq, heq⟩ :=
    insertMsg_eq mid dir qos retain stored properties state m
  rw [heq]
  refine (steps_frame hf).tail (.place dir ht (hctx ▸ hid) (hst ▸ hlive) haddr
    (fun h => ?_) fun hx => ?_)
  · rw [hctx]
    exact hmode (hms ▸ h)
  · refine ⟨hmq.trans (hexact hx), fun h => ?_⟩
    rw [hms] at h ⊢
    rw [hstate h, hmq, hexact hx]

theorem frame_noteDestId (dir : Direction) (retain : Bool) (stored : MsgStore) (id : Bytes)
    (m : Machine) : Frame R m (noteDestId dir retain stored id m) := by
  unfold noteDestId
  split
  · refine ⟨rfl, rfl, rfl, rfl, rfl, rfl, rfl, rfl, rfl, fun k => ?_, .inl rfl⟩
    show ((m.db.msgStore.modify stored.addr _).get k).map _ = _
    rw [Heap.get_modify]
    split
    · rename_i hk
      rw [hk, Option.map_map]
      rfl
    · rfl
  · exact Frame.refl m

theorem frame_wakeLazyBridge (m : Machine) : Frame R m (wakeLazyBridge m) := by
  unfold wakeLazyBridge
  split
  · rename_i b hb
    split
    · refine ⟨rfl, rfl, rfl, rfl, rfl, ?_, rfl, rfl, rfl, fun _ => rfl, .inl rfl⟩
      simp only [Context.core, hb, Option.map_some]
    · exact Frame.refl m
  · exact Frame.refl m

theorem steps_insertAfter {dir : Direction} (ht : R.touch dir) (qos : Qos) (retain : Bool)
    (stored : MsgStore) (id : Bytes) (m : Machine) : Steps R m (insertAfter dir qos retain stored id m) := by
  have hf : Frame R m (wakeLazyBridge (noteDestId dir retain stored id m)) :=
    (frame_noteDestId dir retain stored id m).trans (frame_wakeLazyBridge _)
  unfold insertAfter
  simp only
  split
  · rename_i hdir
    exact (steps_frame hf).trans (steps_shuffle (hdir.1 ▸ ht) (Shuffle.decrementQuota _))
  · exact steps_frame hf

theorem steps_messageInsert {dir : Direction} (ht : R.touch dir) (h : Ready R m)
    {stored : MsgStore} (hlive : R.live stored) (mid : UInt16) (qos : Qos) (retain : Bool)
    (properties : List Property) (update : Bool)
    (hexact : R.exact = true → Qos.min qos m.ctx.maxQos = qos) :
    Steps R m (messageInsert R.net mid dir qos retain stored properties update m).2 := by
  unfold messageInsert
  split
  · exact .refl
  · rename_i id hid
    split
    · exact .refl
    · have hf : Frame R m (insertState dir qos stored m).2 := frame_insertState dir qos stored m
      split
      · rename_i m₁ heq
        rw [heq] at hf
        exact steps_frame hf
      · rename_i state rc m₁ heq
        rw [heq] at hf
        obtain ⟨hmode, hstate⟩ := insertState_ok heq
        have hq : m₁.ctx.maxQos = m.ctx.maxQos := Context.of_core (·.maxQos) (fun _ => rfl) hf.core
        have hid₁ : m₁.ctx.id = some id := 
          (Context.of_core (·.id) (fun _ => rfl) hf.core).trans hid
        have hput : Steps R m (insertAfter dir qos retain stored id
            (insertMsg mid dir qos retain stored properties state m₁)) :=
          ((steps_frame hf).trans (steps_insertMsg ht (hid₁ ▸ Option.some_ne_none id) hlive mid
            retain properties hmode (fun hx => hq ▸ hexact hx) hstate)).trans
              (steps_insertAfter ht qos retain stored id _)
        simp only
        split
        · rename_i hdir
          rw [hdir.1] at ht
          have hlatest := hput.trans (steps_messageWriteInflightOutLatest ht (h.steps hput))
          split
          · exact hlatest
          · have hqueued := hlatest.trans (steps_messageWriteQueuedOut ht _)
            split
            · exact hqueued
            · exact hqueued.trans (steps_messageWriteStorageOut ht _)
        · exact hput

end Calls

end AdaptiveMqtt.Db
