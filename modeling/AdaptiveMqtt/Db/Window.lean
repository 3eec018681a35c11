import AdaptiveMqtt.Db.Ack
import AdaptiveMqtt.Db.Conserve

/-!
# The send window

`inflight_quota` counts the free places of the window, so the quota and the QoS > 0
messages in flight together should never be more than `inflight_maximum`. That sum,
`MsgData.load`, is not increased by an insert or a flush, which take a place before
they use it, nor by an expiry. `db__message_delete_outgoing` is the exception: it
fills the window by position, counting from the place of the message acknowledged
and not from the number of messages in flight.
-/

namespace AdaptiveMqtt.Db

open Lib

/-- The QoS > 0 messages in flight. -/
def MsgData.flying12 (md : MsgData) : Nat := md.inflight.countP (·.qos ≠ .q0)

/-- Free and used places of the window. -/
def MsgData.load (md : MsgData) : Nat := md.inflightQuota + md.flying12

/-- The window is the same and no more of it is given away. -/
structure Narrows (md md' : MsgData) : Prop where
  maximum : md'.inflightMaximum = md.inflightMaximum
  load : md'.load ≤ md.load

namespace Narrows

variable {md md' md'' : MsgData}

theorem refl (md : MsgData) : Narrows md md := ⟨rfl, le_rfl⟩

theorem trans (h : Narrows md md') (h' : Narrows md' md'') : Narrows md md'' :=
  ⟨h'.maximum.trans h.maximum, h'.load.trans h.load⟩

theorem of_eq (h : md' = md) : Narrows md md' := h ▸ refl md

theorem decrementQuota (md : MsgData) : Narrows md md.decrementQuota := by
  unfold MsgData.decrementQuota
  split
  · refine ⟨rfl, ?_⟩
    show md.inflightQuota - 1 + md.flying12 ≤ md.inflightQuota + md.flying12
    omega
  · exact refl md

end Narrows

section Moves

variable {md : MsgData} {f : ClientMsg → ClientMsg} {addr : Nat}

theorem countP_map_key (l : List ClientMsg) :
    (l.map ClientMsg.key).countP (·.qos ≠ .q0) = l.countP (·.qos ≠ .q0) :=
  List.countP_map

theorem countP_updateAt (hf : Writes f) (l : List ClientMsg) :
    (updateAt addr f l).countP (·.qos ≠ .q0) = l.countP (·.qos ≠ .q0) := by
  rw [← countP_map_key, map_key_updateAt hf, countP_map_key]

theorem narrows_updateInflight (hf : Writes f) (md : MsgData) :
    Narrows md { md with inflight := updateAt addr f md.inflight } := by
  refine ⟨rfl, ?_⟩
  show md.inflightQuota + (updateAt addr f md.inflight).countP _ ≤ md.load
  rw [countP_updateAt hf]
  exact le_rfl

/-- A message goes to flight on a free place. -/
theorem narrows_fly {md' : MsgData} (msg : ClientMsg) (hq : md.inflightQuota ≠ 0)
    (hin : md'.inflight = md.inflight ++ [msg]) (hquota : md'.inflightQuota = md.inflightQuota)
    (hmax : md'.inflightMaximum = md.inflightMaximum) : Narrows md md'.decrementQuota := by
  have hone : [msg].countP (·.qos ≠ .q0) ≤ 1 := List.countP_le_length
  unfold MsgData.decrementQuota
  rw [if_pos (by omega)]
  refine ⟨hmax, ?_⟩
  show md'.inflightQuota - 1 + md'.inflight.countP _ ≤ md.inflightQuota + md.inflight.countP _
  rw [hin, List.countP_append]
  omega

theorem narrows_dequeueFirst (md : MsgData) (hq : md.inflightQuota ≠ 0) :
    Narrows md md.dequeueFirst := by
  unfold MsgData.dequeueFirst
  split
  · exact .refl md
  · exact narrows_fly _ hq rfl rfl rfl

theorem narrows_destorageFirst (md : MsgData) (b : Bool)
    (hq : b = true → md.inflightQuota ≠ 0) : Narrows md (md.destorageFirst b) := by
  unfold MsgData.destorageFirst
  split
  · exact .refl md
  · split
    · exact ⟨rfl, le_rfl⟩
    · rename_i hb
      exact narrows_fly _ (hq (by simpa using hb)) rfl rfl rfl

theorem narrows_writeQueuedLoop (l : List ClientMsg) (md : MsgData)
    (hmax : md.inflightMaximum ≠ 0) : Narrows md (writeQueuedLoop l md) := by
  induction l generalizing md with
  | nil => exact .refl md
  | cons msg rest ih =>
    unfold writeQueuedLoop
    split
    · exact .refl md
    · rename_i hroom
      have hup : Narrows md { md with queued := updateAt msg.addr ClientMsg.toPublish md.queued } :=
        ⟨rfl, le_rfl⟩
      have hstep := hup.trans (narrows_dequeueFirst _ fun h0 => hroom ⟨hmax, h0⟩)
      exact hstep.trans (ih _ (by rw [hstep.maximum]; exact hmax))

theorem narrows_writeStorageLoop (now timeout : Int) (mode : TransferMode) (l : List ClientMsg)
    (md : MsgData) (hmax : md.inflightMaximum ≠ 0) :
    Narrows md (writeStorageLoop now timeout mode l md) := by
  induction l generalizing md with
  | nil => exact .refl md
  | cons msg rest ih =>
    unfold writeStorageLoop
    simp only
    split
    · split
      · have hstep := narrows_destorageFirst md false (absurd · Bool.false_ne_true)
        exact hstep.trans (ih _ (by rw [hstep.maximum]; exact hmax))
      · rename_i hroom
        have hup : Narrows md { md with
            storage := updateAt msg.addr ClientMsg.toPublish md.storage } := ⟨rfl, le_rfl⟩
        have hstep := hup.trans (narrows_destorageFirst _ true fun _ h0 => hroom ⟨hmax, h0⟩)
        exact hstep.trans (ih _ (by rw [hstep.maximum]; exact hmax))
    · exact ih md hmax

end Moves

/-! ## Removing -/

section Remove

variable {m : Machine} {item : ClientMsg}

theorem MsgData.remove_window (md : MsgData) (item : ClientMsg) :
    (md.remove item).inflight = md.inflight.eraseP (·.addr = item.addr) ∧
    (md.remove item).queued = md.queued ∧
    (md.remove item).inflightQuota = md.inflightQuota ∧
    (md.remove item).inflightMaximum = md.inflightMaximum := by
  unfold MsgData.remove
  split <;> exact ⟨rfl, rfl, rfl, rfl⟩

/-- A removed message leaves its place. -/
theorem load_remove {md : MsgData} (hnd : (md.inflight.map (·.addr)).Nodup)
    (hmem : item.key ∈ md.inflight.map ClientMsg.key) :
    (md.remove item).load + (if item.qos ≠ .q0 then 1 else 0) = md.load := by
  obtain ⟨hin, -, hquota, -⟩ := md.remove_window item
  have hperm := (eraseP_perm hnd hmem).countP_eq (·.qos ≠ .q0)
  rw [List.countP_cons, countP_map_key, countP_map_key, ClientMsg.key_qos] at hperm
  unfold MsgData.load MsgData.flying12
  rw [hin, hquota, hperm]
  simp only [decide_eq_true_eq]
  omega

theorem narrows_remove {md : MsgData} (hnd : (md.inflight.map (·.addr)).Nodup)
    (hmem : item.key ∈ md.inflight.map ClientMsg.key) : Narrows md (md.remove item) := by
  refine ⟨(md.remove_window item).2.2.2, ?_⟩
  have := load_remove hnd hmem
  omega

/-- Giving a place back for a message of QoS > 0 and removing it. -/
theorem narrows_incrementQuota_remove {md : MsgData} (hnd : (md.inflight.map (·.addr)).Nodup)
    (hmem : item.key ∈ md.inflight.map ClientMsg.key) (hq : item.qos ≠ .q0) :
    Narrows md (md.incrementQuota.remove item) := by
  have hin : md.incrementQuota.inflight = md.inflight := by
    unfold MsgData.incrementQuota
    split <;> rfl
  have hmax : md.incrementQuota.inflightMaximum = md.inflightMaximum := by
    unfold MsgData.incrementQuota
    split <;> rfl
  have hquota : md.incrementQuota.inflightQuota ≤ md.inflightQuota + 1 := by
    unfold MsgData.incrementQuota
    split
    · exact le_rfl
    · exact Nat.le_succ _
  have hload : (md.incrementQuota.remove item).load + _ = md.incrementQuota.load :=
    load_remove (hin ▸ hnd) (hin ▸ hmem)
  refine ⟨(md.incrementQuota.remove_window item).2.2.2.trans hmax, ?_⟩
  rw [if_pos hq] at hload
  unfold MsgData.load MsgData.flying12 at hload ⊢
  rw [hin] at hload
  omega

end Remove

/-! ## Writing out -/

section Write

variable (net : Net) {m : Machine}

abbrev Machine.Narrows (m m' : Machine) : Prop := Db.Narrows m.ctx.msgsOut m'.ctx.msgsOut

theorem narrows_frame {R : Rules} {m' : Machine} (h : Frame R m m') : m.Narrows m' :=
  .of_eq h.msgsOut

theorem narrows_afterPublish {msg : ClientMsg} {next : Option MsgState} {r : Rc × Machine}
    (hr : SameLists m r.2) (hnd : (m.ctx.msgsOut.inflight.map (·.addr)).Nodup)
    (hmem : msg.key ∈ m.flying) (hnext : ∀ s, next = some s → MsgState.isPublish s = false) :
    m.Narrows (afterPublish msg next r).2 := by
  have hframe : m.Narrows r.2 := .of_eq hr.msgsOut
  have hgone : ∀ e, m.Narrows (removeOut msg e r.2) := by
    intro e
    show Db.Narrows m.ctx.msgsOut (r.2.ctx.msgsOut.remove msg)
    rw [hr.msgsOut]
    exact narrows_remove hnd hmem
  unfold afterPublish
  split
  · cases next with
    | none => exact hgone _
    | some s => exact hframe.trans (narrows_updateInflight (writes_set (hnext s rfl)) _)
  · split
    · exact hgone _
    · exact hframe

theorem narrows_single {msg : ClientMsg} (hnd : (m.ctx.msgsOut.inflight.map (·.addr)).Nodup)
    (hmem : msg.key ∈ m.flying) : m.Narrows (messageWriteInflightOutSingle net msg m).2 := by
  unfold messageWriteInflightOutSingle
  simp only
  split
  · split
    · rename_i hq
      exact narrows_incrementQuota_remove hnd hmem hq.2
    · exact narrows_remove hnd hmem
  · obtain ⟨a, ha, hk⟩ := List.mem_map.mp hmem
    have hsend : ∀ p : Publish, p.store = msg.store → SameLists m (sendPublish net p m).2 :=
      fun p hp => (sends_sendPublish (R := loose net)
        ⟨a, ha, (congrArg (·.store) hk).trans hp.symm⟩).same
    split
    · exact narrows_afterPublish (hsend _ rfl) hnd hmem (fun _ h => nomatch h)
    · exact narrows_afterPublish (hsend _ rfl) hnd hmem (fun s h => by cases h; rfl)
    · exact narrows_afterPublish (hsend _ rfl) hnd hmem (fun s h => by cases h; rfl)
    · have hrel : m.Narrows (sendPubrel net msg.mid m).2 := .refl _
      split
      · exact hrel.trans (narrows_updateInflight (writes_state rfl) _)
      · exact hrel
    · exact .refl _

theorem narrows_writeInflightLoop : ∀ {l : List ClientMsg} {m : Machine}, Sound .mdOut m →
    (l.map (·.addr)).Nodup → (∀ a ∈ l, a.key ∈ m.flying) →
    m.Narrows (writeInflightLoop net l m).2 := by
  intro l
  induction l with
  | nil => intro m _ _ _; exact .refl _
  | cons msg rest ih =>
    intro m hs hnd hmem
    rw [List.map_cons, List.nodup_cons] at hnd
    have hone := narrows_single net hs.nodup_inflight (hmem msg List.mem_cons_self)
    obtain ⟨hsteps, hkeep⟩ : Writing (loose net) msg.addr m _ :=
      writing_single trivial (hmem msg List.mem_cons_self) (nomatch ·)
    unfold writeInflightLoop
    simp only
    split
    · exact hone
    · refine hone.trans (ih (sound_steps hs hsteps) hnd.2 fun a ha => ?_)
      refine hkeep a (fun e => hnd.1 ?_) (hmem a (List.mem_cons_of_mem msg ha))
      exact List.mem_map.mpr ⟨a, ha, e⟩

theorem narrows_messageWriteInflightOutLatest (hs : Sound .mdOut m) :
    m.Narrows (messageWriteInflightOutLatest net m).2 := by
  unfold messageWriteInflightOutLatest
  split
  · exact .refl _
  · have hsub := latestFrom_sublist m.ctx.msgsOut.inflight
    exact narrows_writeInflightLoop net hs (hs.nodup_inflight.sublist (hsub.map _))
      fun a ha => List.mem_map.mpr ⟨a, hsub.subset ha, rfl⟩

theorem narrows_messageWriteInflightOutAll (hs : Sound .mdOut m) :
    m.Narrows (messageWriteInflightOutAll net m).2 := by
  unfold messageWriteInflightOutAll
  split
  · exact .refl _
  · exact narrows_writeInflightLoop net hs hs.nodup_inflight
      fun a ha => List.mem_map.mpr ⟨a, ha, rfl⟩

theorem narrows_messageWriteQueuedOut (hmax : m.ctx.msgsOut.inflightMaximum ≠ 0) :
    m.Narrows (messageWriteQueuedOut m).2 := by
  unfold messageWriteQueuedOut
  split
  · exact .refl _
  · exact narrows_writeQueuedLoop _ _ hmax

theorem narrows_messageWriteStorageOut (hmax : m.ctx.msgsOut.inflightMaximum ≠ 0) :
    m.Narrows (messageWriteStorageOut m).2 := by
  unfold messageWriteStorageOut
  split
  · exact .refl _
  · exact narrows_writeStorageLoop _ _ _ _ _ hmax

end Write

/-! ## Inserting -/

section Insert

variable (net : Net) {m : Machine}

theorem quota_of_readyForFlight {config : Config} {ctx : Context} {qos : Qos}
    (hmax : ctx.msgsOut.inflightMaximum ≠ 0) (hbytes : config.maxInflightBytes = 0)
    (hq : qos ≠ .q0) (h : readyForFlight config ctx .mdOut qos = true) :
    ctx.msgsOut.inflightQuota ≠ 0 := by
  have hpos : 0 < ctx.msgsOut.inflightQuota := by
    simpa [readyForFlight, Context.msgs, hmax, hbytes, hq] using h
  omega

/-- An outgoing message that is to fly has a place. -/
theorem insertState_flight {qos : Qos} {stored : MsgStore} {m' : Machine} {state : MsgState}
    {rc : Rc} (h : insertState .mdOut qos stored m = (.ok (state, rc), m')) :
    state = .queued ∨ state = .storage ∨
      readyForFlight m'.db.config m'.ctx .mdOut qos = true := by
  unfold insertState at h
  simp only at h
  split at h
  · split at h
    · cases h
      exact .inr (.inl rfl)
    · split at h
      · rename_i hready
        cases h
        exact .inr (.inr hready)
      · split at h
        · cases h
          exact .inl rfl
        · cases h
  · split at h
    · cases h
      exact .inl rfl
    · cases h

theorem wakeLazyBridge_noteDestId (dir : Direction) (retain : Bool) (stored : MsgStore) (id : Bytes)
    (m : Machine) : (wakeLazyBridge (noteDestId dir retain stored id m)).ctx.maxQos =
      m.ctx.maxQos := by
  unfold wakeLazyBridge noteDestId
  split
  · split <;> split <;> rfl
  · split <;> rfl

theorem MsgData.place_window (md : MsgData) (msg : ClientMsg) (qos : Qos) :
    ((md.place msg).count msg qos).inflightQuota = md.inflightQuota ∧
    ((md.place msg).count msg qos).inflightMaximum = md.inflightMaximum ∧
    ((md.place msg).count msg qos).inflight =
      if msg.state = .queued ∨ msg.state = .storage then md.inflight else md.inflight ++ [msg] := by
  unfold MsgData.count MsgData.place
  split <;> split <;> simp_all

theorem narrows_insert (mid : UInt16) {qos : Qos} (retain : Bool) (stored : MsgStore)
    (properties : List Property) {state : MsgState} (id : Bytes)
    (hready : state = .queued ∨ state = .storage ∨ qos = .q0 ∨ m.ctx.msgsOut.inflightQuota ≠ 0) :
    m.Narrows (insertAfter .mdOut qos retain stored id
      (insertMsg mid .mdOut qos retain stored properties state m)) := by
  obtain ⟨msg, m₁, hf, hctx, -, -, hstate, hqos, heq⟩ :=
    insertMsg_eq (R := loose Net.taking) mid .mdOut qos retain stored properties state m
  have hmd : (insertMsg mid .mdOut qos retain stored properties state m).ctx.msgsOut =
      (m.ctx.msgsOut.place msg).count msg qos := by
    rw [heq, ← hctx]
    exact placeMsg_msgs_self .mdOut msg qos m₁
  have hmaxQos : (insertMsg mid .mdOut qos retain stored properties state m).ctx.maxQos =
      m.ctx.maxQos := by
    rw [heq, ← hctx]
    rfl
  obtain ⟨hquota, hmax, hin⟩ := m.ctx.msgsOut.place_window msg qos
  have hlazy : Frame (loose Net.taking) _ (wakeLazyBridge (noteDestId .mdOut retain stored id
      (insertMsg mid .mdOut qos retain stored properties state m))) :=
    (frame_noteDestId _ _ _ _ _).trans (frame_wakeLazyBridge _)
  unfold insertAfter
  simp only [true_and, wakeLazyBridge_noteDestId, hmaxQos, ← hqos]
  by_cases hlist : msg.state = .queued ∨ msg.state = .storage
  · -- nothing enters the list of messages in flight
    have hsame : m.Narrows (wakeLazyBridge (noteDestId .mdOut retain stored id
        (insertMsg mid .mdOut qos retain stored properties state m))) := by
      refine ⟨?_, ?_⟩
      · rw [hlazy.msgsOut, hmd, hmax]
      · rw [hlazy.msgsOut, hmd]
        unfold MsgData.load MsgData.flying12
        rw [hquota, hin, if_pos hlist]
    split
    · exact hsame.trans (.decrementQuota _)
    · exact hsame
  · rw [if_neg hlist] at hin
    split
    · rename_i hq
      have hroom : m.ctx.msgsOut.inflightQuota ≠ 0 := by
        rw [hstate] at hlist
        have h0 : qos ≠ .q0 := by
          intro h0
          rw [hqos, h0] at hq
          exact hq (by cases m.ctx.maxQos <;> rfl)
        tauto
      refine narrows_fly msg hroom ?_ ?_ ?_
      · exact (congrArg (·.inflight) (hlazy.msgsOut.trans hmd)).trans hin
      · exact (congrArg (·.inflightQuota) (hlazy.msgsOut.trans hmd)).trans hquota
      · exact (congrArg (·.inflightMaximum) (hlazy.msgsOut.trans hmd)).trans hmax
    · rename_i hq
      refine ⟨?_, ?_⟩
      · rw [hlazy.msgsOut, hmd, hmax]
      · rw [hlazy.msgsOut, hmd]
        unfold MsgData.load MsgData.flying12
        rw [hquota, hin, List.countP_append]
        simp [hq]

theorem narrows_messageInsert (hs : Sound .mdOut m) (hmax : m.ctx.msgsOut.inflightMaximum ≠ 0)
    (hbytes : m.db.config.maxInflightBytes = 0) (mid : UInt16) (qos : Qos) (retain : Bool)
    (stored : MsgStore) (properties : List Property) (update : Bool) :
    m.Narrows (messageInsert net mid .mdOut qos retain stored properties update m).2 := by
  unfold messageInsert
  split
  · exact .refl _
  · rename_i id hid
    split
    · exact .refl _
    · have hf : Frame (loose net) m (insertState .mdOut qos stored m).2 :=
        frame_insertState _ _ _ _
      split
      · rename_i m₁ heq
        rw [heq] at hf
        exact narrows_frame hf
      · rename_i state rc m₁ heq
        rw [heq] at hf
        obtain ⟨hmode, hstate⟩ := insertState_ok heq
        have hid₁ : m₁.ctx.id = some id := 
          (Context.of_core (·.id) (fun _ => rfl) hf.core).trans hid
        have hready : state = .queued ∨ state = .storage ∨ qos = .q0 ∨
            m₁.ctx.msgsOut.inflightQuota ≠ 0 := by
          rcases insertState_flight heq with h | h | h
          · exact .inl h
          · exact .inr (.inl h)
          · by_cases h0 : qos = .q0
            · exact .inr (.inr (.inl h0))
            · refine .inr (.inr (.inr (quota_of_readyForFlight ?_ ?_ h0 h)))
              · rw [hf.msgsOut]
                exact hmax
              · rw [hf.config]
                exact hbytes
        have hput := (narrows_frame hf).trans
          (narrows_insert mid retain stored properties id hready)
        have hsteps : Steps (loose net) m (insertAfter .mdOut qos retain stored id
            (insertMsg mid .mdOut qos retain stored properties state m₁)) :=
          ((steps_frame hf).trans (steps_insertMsg trivial (hid₁ ▸ Option.some_ne_none id) trivial
            mid retain properties hmode (nomatch ·) hstate)).trans
              (steps_insertAfter trivial qos retain stored id _)
        simp only
        split
        · have hs₁ := sound_steps hs hsteps
          have hlatest := hput.trans (narrows_messageWriteInflightOutLatest net hs₁)
          split
          · exact hlatest
          · have hmax₁ := hlatest.maximum ▸ hmax
            have hqueued := hlatest.trans (narrows_messageWriteQueuedOut hmax₁)
            split
            · exact hqueued
            · exact hqueued.trans (narrows_messageWriteStorageOut (hqueued.maximum ▸ hmax))
        · exact hput

end Insert

/-! ## Acknowledging -/

/-- The message acknowledged is the newest in flight, or all queued messages fit into the
window without it. -/
def MsgData.Fits (md : MsgData) (mid : UInt16) : Prop :=
  md.inflight.findIdx (·.mid = mid) + 1 = md.inflight.length ∨
    md.inflight.length - 1 + md.queued.length ≤ md.inflightMaximum

section Delete

variable (net : Net) {m : Machine}

theorem dequeueFirst_window (md : MsgData) :
    md.dequeueFirst.inflightMaximum = md.inflightMaximum ∧
    md.dequeueFirst.inflight.length ≤ md.inflight.length + 1 ∧
    (md.inflightQuota = 0 → md.dequeueFirst.inflightQuota = 0) := by
  unfold MsgData.dequeueFirst MsgData.decrementQuota
  split
  · exact ⟨rfl, Nat.le_succ _, id⟩
  · split <;> exact ⟨rfl, by simp, by simp_all⟩

/-- The loop over the queue fills the window from `i` on. -/
theorem load_deleteOutgoingLoop (now : Int) (l : List ClientMsg) (i : Nat) (md : MsgData)
    (hmax0 : md.inflightMaximum ≠ 0) (hfit : i < md.inflightMaximum → md.inflight.length +
      min l.length (md.inflightMaximum - i) ≤ md.inflightMaximum) :
    (deleteOutgoingLoop now l i md).inflightMaximum = md.inflightMaximum ∧
    (deleteOutgoingLoop now l i md).load ≤ max md.load md.inflightMaximum := by
  induction l generalizing i md with
  | nil => exact ⟨rfl, le_max_left _ _⟩
  | cons msg rest ih =>
    unfold deleteOutgoingLoop
    split
    · exact ⟨rfl, le_max_left _ _⟩
    · rename_i hstop
      simp only
      generalize hmd₁ : ({ md with queued := updateAt msg.addr _ md.queued } : MsgData) = md₁
      have hin : md₁.inflight = md.inflight := by rw [← hmd₁]
      have hquota : md₁.inflightQuota = md.inflightQuota := by rw [← hmd₁]
      have hmax : md₁.inflightMaximum = md.inflightMaximum := by rw [← hmd₁]
      have hload₁ : md₁.load = md.load := by
        unfold MsgData.load MsgData.flying12
        rw [hin, hquota]
      obtain ⟨hmax', hlen, hzero⟩ := dequeueFirst_window md₁
      rw [List.length_cons] at hfit
      obtain ⟨hm, hl⟩ := ih (i + 1) md₁.dequeueFirst (by rw [hmax', hmax]; exact hmax0) (by
        rw [hmax', hmax]
        intro hi
        have := hfit (by omega)
        rw [hin] at hlen
        omega)
      refine ⟨hm.trans (hmax'.trans hmax), hl.trans ?_⟩
      rw [hmax', hmax]
      refine max_le ?_ (le_max_right _ _)
      by_cases hq : md₁.inflightQuota = 0
      · -- the quota is used up, and only the length of the list bounds the window
        have hcount : md₁.dequeueFirst.flying12 ≤ md₁.dequeueFirst.inflight.length :=
          List.countP_le_length
        refine le_max_of_le_right ?_
        unfold MsgData.load
        rw [hzero hq]
        rw [hin] at hlen
        have := hfit (by omega)
        omega
      · refine le_max_of_le_left ?_
        rw [← hload₁]
        exact (narrows_dequeueFirst md₁ hq).load

theorem length_eraseP_addr {md : MsgData} {tail : ClientMsg} (hmem : tail ∈ md.inflight) :
    (md.remove tail).inflight.length = md.inflight.length - 1 := by
  rw [(md.remove_window tail).1]
  exact List.length_eraseP_of_mem hmem (by simp)

/-- An acknowledged message of QoS > 0 leaves its place, and what fits moves up. -/
theorem load_messageDeleteOutgoing (hs : Sound .mdOut m)
    (hmax : m.ctx.msgsOut.inflightMaximum ≠ 0) {mid : UInt16} {expectState : MsgState} {qos : Qos}
    {tail : ClientMsg} (hfind : m.ctx.msgsOut.inflight.find? (·.mid = mid) = some tail)
    (hfit : m.ctx.msgsOut.Fits mid) (hq : tail.qos = qos) (hq0 : qos ≠ .q0)
    (hstate : qos = .q2 → tail.state = expectState) :
    (messageDeleteOutgoing net mid expectState qos m).2.ctx.msgsOut.inflightMaximum =
      m.ctx.msgsOut.inflightMaximum ∧
    (messageDeleteOutgoing net mid expectState qos m).2.ctx.msgsOut.load ≤
      max (m.ctx.msgsOut.load - 1) m.ctx.msgsOut.inflightMaximum := by
  have hmem := List.mem_of_find?_eq_some hfind
  have hkey : tail.key ∈ m.ctx.msgsOut.inflight.map ClientMsg.key :=
    List.mem_map.mpr ⟨tail, hmem, rfl⟩
  have hidx : m.ctx.msgsOut.inflight.findIdx (·.mid = mid) < m.ctx.msgsOut.inflight.length :=
    List.findIdx_lt_length_of_exists ⟨tail, hmem, by simpa using List.find?_some hfind⟩
  have hgone := load_remove hs.nodup_inflight hkey
  rw [if_pos (hq ▸ hq0)] at hgone
  obtain ⟨-, hqueued, -, hmaximum⟩ := m.ctx.msgsOut.remove_window tail
  have hlen := length_eraseP_addr hmem
  -- the machine after the removal, and then with the queue moved up
  set m₁ := removeOut tail (.acked tail mid expectState qos) m with hm₁
  have hmd₁ : m₁.ctx.msgsOut = m.ctx.msgsOut.remove tail := rfl
  have hsteps : Steps (loose net) m m₁ := .single (.removeOut trivial hkey rfl (nomatch ·))
  obtain ⟨hloopMax, hloop⟩ := load_deleteOutgoingLoop m₁.db.nowS m₁.ctx.msgsOut.queued
    (m.ctx.msgsOut.inflight.findIdx (·.mid = mid)) m₁.ctx.msgsOut
    (by rw [hmd₁, hmaximum]; exact hmax) (by
      rw [hmd₁, hmaximum, hqueued, hlen]
      intro hi
      rcases hfit with h | h <;> omega)
  set m₂ := m₁.onMsgs .mdOut fun md => deleteOutgoingLoop m₁.db.nowS md.queued
    (m.ctx.msgsOut.inflight.findIdx (·.mid = mid)) md with hm₂
  have hsteps₂ : Steps (loose net) m m₂ :=
    hsteps.trans (steps_shuffle trivial (shuffle_deleteOutgoingLoop _ _ _ _))
  have hnarrow := narrows_messageWriteInflightOutLatest net (sound_steps hs hsteps₂)
  have hresult : messageDeleteOutgoing net mid expectState qos m =
      messageWriteInflightOutLatest net m₂ := by
    unfold messageDeleteOutgoing
    simp only [hfind, hq, ne_eq, not_true, if_false]
    rw [if_neg fun h => h.2 (hstate h.1)]
  rw [hresult]
  refine ⟨hnarrow.maximum.trans (hloopMax.trans hmaximum), hnarrow.load.trans (hloop.trans ?_)⟩
  rw [hmd₁, hmaximum]
  omega

/-- Without a message of that mid, the queue moves up behind the list. -/
theorem load_messageDeleteOutgoing_none (hs : Sound .mdOut m)
    (hmax : m.ctx.msgsOut.inflightMaximum ≠ 0) {mid : UInt16} (expectState : MsgState) (qos : Qos)
    (hfind : m.ctx.msgsOut.inflight.find? (·.mid = mid) = none) :
    (messageDeleteOutgoing net mid expectState qos m).2.ctx.msgsOut.inflightMaximum =
      m.ctx.msgsOut.inflightMaximum ∧
    (messageDeleteOutgoing net mid expectState qos m).2.ctx.msgsOut.load ≤
      max m.ctx.msgsOut.load m.ctx.msgsOut.inflightMaximum := by
  have hidx : m.ctx.msgsOut.inflight.findIdx (·.mid = mid) = m.ctx.msgsOut.inflight.length :=
    List.findIdx_eq_length.mpr fun a ha => by
      have := List.find?_eq_none.mp hfind a ha
      simpa using this
  obtain ⟨hloopMax, hloop⟩ := load_deleteOutgoingLoop m.db.nowS m.ctx.msgsOut.queued
    (m.ctx.msgsOut.inflight.findIdx (·.mid = mid)) m.ctx.msgsOut hmax (by omega)
  have hsteps : Steps (loose net) m (m.onMsgs .mdOut fun md =>
      deleteOutgoingLoop m.db.nowS md.queued (m.ctx.msgsOut.inflight.findIdx (·.mid = mid)) md) :=
    steps_shuffle trivial (shuffle_deleteOutgoingLoop _ _ _ _)
  have hnarrow := narrows_messageWriteInflightOutLatest net (sound_steps hs hsteps)
  unfold messageDeleteOutgoing
  simp only [hfind]
  exact ⟨hnarrow.maximum.trans hloopMax, hnarrow.load.trans hloop⟩

theorem narrows_messageUpdateOutgoing (m : Machine) (mid : UInt16) {state : MsgState} (qos : Qos)
    (hs : MsgState.isPublish state = false) :
    m.Narrows (messageUpdateOutgoing mid state qos m).2 := by
  unfold messageUpdateOutgoing
  split
  · exact .refl _
  · split
    · exact .refl _
    · have hw : Writes fun msg => { msg with state, timestamp := m.db.nowS } :=
        ⟨fun _ => rfl, fun msg _ hp => absurd (hs.symm.trans hp) (by simp)⟩
      exact narrows_updateInflight hw _

theorem narrows_takeSample (type : AckType) (hmax : m.ctx.msgsOut.inflightMaximum ≠ 0) :
    m.Narrows (takeSample type m).2 := by
  have hrec : Frame (loose Net.taking) m (recordLatency m) := frame_recordLatency (nomatch ·)
  unfold takeSample
  split
  · have hstore := (narrows_frame hrec).trans
      (narrows_messageWriteStorageOut (by rw [hrec.msgsOut]; exact hmax))
    simp only
    split <;> exact hstore
  · exact .refl _

theorem takeSample_rc (type : AckType) (m : Machine) : (takeSample type m).1 = Rc.success := by
  have hstore : (messageWriteStorageOut (recordLatency m)).1 = Rc.success := by
    unfold messageWriteStorageOut
    split <;> rfl
  unfold takeSample
  split
  · simp only [hstore, ne_eq, not_true, if_false]
  · rfl

theorem load_acknowledge (hs : Sound .mdOut m) (hmax : m.ctx.msgsOut.inflightMaximum ≠ 0)
    {type : AckType} {mid : UInt16} {tail : ClientMsg}
    (hfind : (takeSample type m).2.ctx.msgsOut.inflight.find? (·.mid = mid) = some tail)
    (hq : tail.qos = type.qos) (hstate : type.qos = .q2 → tail.state = .waitForPubcomp)
    (hfit : (takeSample type m).2.ctx.msgsOut.Fits mid) :
    (acknowledge net type mid m).2.ctx.msgsOut.inflightMaximum =
      m.ctx.msgsOut.inflightMaximum ∧
    (acknowledge net type mid m).2.ctx.msgsOut.load ≤
      max (m.ctx.msgsOut.load - 1) m.ctx.msgsOut.inflightMaximum := by
  have hsteps : Steps (loose net) m (takeSample type m).2 :=
    steps_takeSample trivial type (nomatch ·)
  have hnarrow := narrows_takeSample type hmax
  have hq0 : type.qos ≠ .q0 := by cases type <;> exact (nomatch ·)
  obtain ⟨hdelMax, hdel⟩ := load_messageDeleteOutgoing net (sound_steps hs hsteps)
    (by rw [hnarrow.maximum]; exact hmax) hfind hfit hq hq0 hstate
  rw [hnarrow.maximum] at hdelMax hdel
  have hload := hdel.trans (max_le_max_right _ (Nat.sub_le_sub_right hnarrow.load 1))
  unfold acknowledge
  simp only [takeSample_rc, ne_eq, not_true, if_false]
  split <;> exact ⟨hdelMax, hload⟩

theorem incrementQuota_load (md : MsgData) :
    md.incrementQuota.inflightMaximum = md.inflightMaximum ∧
      md.incrementQuota.load ≤ md.load + 1 := by
  unfold MsgData.incrementQuota
  split
  · refine ⟨rfl, ?_⟩
    show md.inflightQuota + 1 + md.flying12 ≤ md.inflightQuota + md.flying12 + 1
    omega
  · exact ⟨rfl, Nat.le_succ _⟩

end Delete

/-! ## Runs -/

/-- What happens to the outgoing messages of a connected client. Between two events
everything else may change. -/
inductive Traffic where
  | insert (mid : UInt16) (qos : Qos) (retain : Bool) (stored : MsgStore)
    (properties : List Property) (update : Bool)
  | writeQueuedOut
  | writeStorageOut
  | writeInflightOutLatest
  | writeInflightOutAll
  | ack (type : AckType) (p : AckPacket)
  | pubrec (p : AckPacket)
  | between (db : MosquittoDb) (ctx : Context)

namespace Traffic

def exec (net : Net) (m : Machine) : Traffic → Machine
  | insert mid qos retain stored properties update =>
    (messageInsert net mid .mdOut qos retain stored properties update m).2
  | writeQueuedOut => (messageWriteQueuedOut m).2
  | writeStorageOut => (messageWriteStorageOut m).2
  | writeInflightOutLatest => (messageWriteInflightOutLatest net m).2
  | writeInflightOutAll => (messageWriteInflightOutAll net m).2
  | ack type p => (handlePubackcomp net type p m).2
  | pubrec p => (handlePubrec net p m).2
  | between db ctx =>
    { db := { db with config := m.db.config, nextMsg := m.db.nextMsg + db.nextMsg }
      ctx := { ctx with msgsOut := m.ctx.msgsOut } }

/-- An acknowledgement is of a message in flight that was sent and waits for it. -/
def Answers (m : Machine) : Traffic → Prop
  | ack type p => ∃ mid tail, readAck type m.ctx.protocol p = .ok mid ∧
      m.ctx.msgsOut.inflight.find? (·.mid = mid) = some tail ∧ tail.qos = type.qos ∧
      tail.state = match type with
        | .puback => .waitForPuback
        | .pubcomp => .waitForPubcomp
  | pubrec p => ∃ mid reasonCode tail, readPubrec m.ctx.protocol p = .ok (mid, reasonCode) ∧
      m.ctx.msgsOut.inflight.find? (·.mid = mid) = some tail ∧ tail.qos = .q2 ∧
      tail.state = .waitForPubrec
  | _ => True

/-- A PUBACK or PUBCOMP finds the message it acknowledges still in flight, and whenever
an acknowledged message is removed, the queue fits behind it. -/
def Orderly (m : Machine) : Traffic → Prop
  | ack type p => ∃ mid tail, readAck type m.ctx.protocol p = .ok mid ∧
      let md := (takeSample type (m.onMsgs .mdOut (·.incrementQuota))).2.ctx.msgsOut
      md.inflight.find? (·.mid = mid) = some tail ∧ tail.qos = type.qos ∧
        (type.qos = .q2 → tail.state = .waitForPubcomp) ∧ md.Fits mid
  | pubrec p => ∀ mid reasonCode, readPubrec m.ctx.protocol p = .ok (mid, reasonCode) →
      ¬ reasonCode < 0x80 → m.ctx.msgsOut.inflight.any (·.mid = mid) → m.ctx.msgsOut.Fits mid
  | _ => True

end Traffic

/-- The machines that traffic allowed by `ok` leads to from `m₀`. -/
inductive Runs (ok : Machine → Traffic → Prop) (m₀ : Machine) : Machine → Prop where
  | start : Runs ok m₀ m₀
  | next {m : Machine} (h : Runs ok m₀ m) (net : Net) (t : Traffic) (hok : ok m t) :
    Runs ok m₀ (t.exec net m)

/-- Empty lists and a full quota of `n`, with no limit on bytes. -/
structure FullQuota (n : Nat) (m : Machine) : Prop where
  clear : Clear m
  maximum : m.ctx.msgsOut.inflightMaximum = n
  quota : m.ctx.msgsOut.inflightQuota = n
  bytes : m.db.config.maxInflightBytes = 0

structure Windowed (n : Nat) (m : Machine) : Prop where
  sound : Sound .mdOut m
  maximum : m.ctx.msgsOut.inflightMaximum = n
  load : m.ctx.msgsOut.load ≤ n
  bytes : m.db.config.maxInflightBytes = 0

section Run

variable {n : Nat} {m : Machine}

theorem Windowed.ready (net : Net) (h : Windowed n m) : Ready (loose net) m :=
  ⟨h.sound, (nomatch ·)⟩

theorem Windowed.steps {R : Rules} {m' : Machine} (h : Windowed n m) (hsteps : Steps R m m')
    (hmax : m'.ctx.msgsOut.inflightMaximum = m.ctx.msgsOut.inflightMaximum)
    (hload : m'.ctx.msgsOut.load ≤ n) : Windowed n m' :=
  ⟨sound_steps h.sound hsteps, hmax.trans h.maximum, hload, (core_steps hsteps).1 ▸ h.bytes⟩

theorem Windowed.narrows {R : Rules} {m' : Machine} (h : Windowed n m) (hsteps : Steps R m m')
    (hn : m.Narrows m') : Windowed n m' :=
  h.steps hsteps hn.maximum (hn.load.trans h.load)

theorem windowed_ack (net : Net) (hn : n ≠ 0) (h : Windowed n m) {type : AckType} {p : AckPacket}
    (hok : Traffic.Orderly m (.ack type p)) : Windowed n (handlePubackcomp net type p m).2 := by
  have hsteps : Steps (loose net) m (handlePubackcomp net type p m).2 :=
    steps_handlePubackcomp trivial (h.ready net) type p (nomatch ·)
  suffices hwin : (handlePubackcomp net type p m).2.ctx.msgsOut.inflightMaximum =
      m.ctx.msgsOut.inflightMaximum ∧ (handlePubackcomp net type p m).2.ctx.msgsOut.load ≤ n from
    h.steps hsteps hwin.1 hwin.2
  obtain ⟨mid, tail, hread, hfind, hq, hstate, hfit⟩ := hok
  have hinc : Steps (loose net) m (m.onMsgs .mdOut (·.incrementQuota)) :=
    steps_shuffle trivial (Shuffle.incrementQuota _)
  obtain ⟨hincMax, hincLoad⟩ := incrementQuota_load m.ctx.msgsOut
  have hmax : m.ctx.msgsOut.incrementQuota.inflightMaximum = n := hincMax.trans h.maximum
  obtain ⟨hackMax, hack⟩ := load_acknowledge net (sound_steps h.sound hinc)
    (by show m.ctx.msgsOut.incrementQuota.inflightMaximum ≠ 0; rw [hmax]; exact hn)
    hfind hq hstate hfit
  unfold handlePubackcomp
  split
  · exact ⟨rfl, h.load⟩
  · split
    · exact ⟨rfl, h.load⟩
    · have hprot : (m.onMsgs .mdOut (·.incrementQuota)).ctx.protocol = m.ctx.protocol := rfl
      simp only [hprot, hread]
      refine ⟨hackMax.trans hincMax, hack.trans (max_le ?_ hmax.le)⟩
      have hload := h.load
      change m.ctx.msgsOut.incrementQuota.load - 1 ≤ n
      omega

theorem windowed_pubrec (net : Net) (hn : n ≠ 0) (h : Windowed n m) {p : AckPacket}
    (hok : Traffic.Orderly m (.pubrec p)) : Windowed n (handlePubrec net p m).2 := by
  have hsteps : Steps (loose net) m (handlePubrec net p m).2 :=
    steps_handlePubrec trivial (h.ready net) p
  have hmax : m.ctx.msgsOut.inflightMaximum ≠ 0 := by rw [h.maximum]; exact hn
  suffices hwin : (handlePubrec net p m).2.ctx.msgsOut.inflightMaximum =
      m.ctx.msgsOut.inflightMaximum ∧ (handlePubrec net p m).2.ctx.msgsOut.load ≤ n from
    h.steps hsteps hwin.1 hwin.2
  unfold handlePubrec
  split
  · exact ⟨rfl, h.load⟩
  · split
    · exact ⟨rfl, h.load⟩
    · rename_i mid reasonCode hread
      simp only
      split
      · have hup : m.Narrows (messageUpdateOutgoing mid .waitForPubcomp .q2 m).2 :=
          narrows_messageUpdateOutgoing m mid .q2 rfl
        split
        · exact ⟨hup.maximum, hup.load.trans h.load⟩
        · exact ⟨hup.maximum, hup.load.trans h.load⟩
      · rename_i hcode
        cases hfind : m.ctx.msgsOut.inflight.find? (·.mid = mid) with
        | none =>
          obtain ⟨h1, h2⟩ := load_messageDeleteOutgoing_none net h.sound hmax .waitForPubrec .q2 hfind
          exact ⟨h1, h2.trans (max_le h.load h.maximum.le)⟩
        | some tail =>
          have hfit := hok mid reasonCode hread hcode
            (List.any_eq_true.mpr ⟨tail, List.mem_of_find?_eq_some hfind,
              by simpa using List.find?_some hfind⟩)
          by_cases hmatch : tail.qos = .q2 ∧ tail.state = .waitForPubrec
          · obtain ⟨h1, h2⟩ := load_messageDeleteOutgoing net h.sound hmax hfind hfit hmatch.1
              (nomatch ·) fun _ => hmatch.2
            exact ⟨h1, h2.trans (max_le ((Nat.sub_le _ _).trans h.load) h.maximum.le)⟩
          · unfold messageDeleteOutgoing
            simp only [hfind]
            split
            · exact ⟨rfl, h.load⟩
            · rename_i hq
              rw [if_pos ⟨trivial, fun hst => hmatch ⟨not_not.mp hq, hst⟩⟩]
              exact ⟨rfl, h.load⟩

theorem windowed_step (net : Net) (hn : n ≠ 0) (h : Windowed n m) {t : Traffic}
    (hok : t.Orderly m) : Windowed n (t.exec net m) := by
  have hmax : m.ctx.msgsOut.inflightMaximum ≠ 0 := by rw [h.maximum]; exact hn
  have hr := h.ready net
  have ht : (loose net).touch .mdOut := trivial
  cases t with
  | insert mid qos retain stored properties update =>
    exact h.narrows (steps_messageInsert ht hr trivial mid qos retain properties update (nomatch ·))
      (narrows_messageInsert net h.sound hmax h.bytes ..)
  | writeQueuedOut =>
    exact h.narrows (steps_messageWriteQueuedOut ht m) (narrows_messageWriteQueuedOut hmax)
  | writeStorageOut =>
    exact h.narrows (steps_messageWriteStorageOut ht m) (narrows_messageWriteStorageOut hmax)
  | writeInflightOutLatest =>
    exact h.narrows (steps_messageWriteInflightOutLatest ht hr)
      (narrows_messageWriteInflightOutLatest net h.sound)
  | writeInflightOutAll =>
    exact h.narrows (steps_messageWriteInflightOutAll ht hr)
      (narrows_messageWriteInflightOutAll net h.sound)
  | ack type p => exact windowed_ack net hn h hok
  | pubrec p => exact windowed_pubrec net hn h hok
  | between db ctx =>
    refine ⟨⟨h.sound.nodup, fun a ha => ?_⟩, h.maximum, h.load, h.bytes⟩
    exact (h.sound.fresh a ha).trans_le (Nat.le_add_right _ _)

theorem windowed_start (h : FullQuota n m) : Windowed n m := by
  have hin : m.ctx.msgsOut.inflight = [] := by
    have := h.clear.1
    simp only [MsgData.all, List.append_eq_nil_iff] at this
    exact this.1.1
  refine ⟨((clear_spec h.clear).1 (loose Net.taking)).sound, h.maximum, ?_, h.bytes⟩
  unfold MsgData.load MsgData.flying12
  rw [hin, h.quota]
  exact le_rfl

/-- **The window is respected** as long as acknowledgements are orderly. -/
theorem window_respected {m₀ : Machine} (hn : 0 < n) (h₀ : FullQuota n m₀)
    (h : Runs Traffic.Orderly m₀ m) : m.ctx.msgsOut.flying12 ≤ n := by
  have hwin : Windowed n m := by
    induction h with
    | start => exact windowed_start h₀
    | next _ net t hok ih => exact windowed_step net (Nat.pos_iff_ne_zero.mp hn) ih hok
  exact (Nat.le_add_left _ _).trans hwin.load


end Run

/-- A PUBACK without a reason code. -/
def AckPacket.puback (mid : UInt16) : AckPacket :=
  { command := 0x40, remainingLength := 2, mid := .ok mid, reasonCode := .ok 0
    properties := .ok [], trailing := false }

def Machine.idleTwo : Machine :=
  { Machine.idle with ctx := { Machine.idle.ctx with msgsOut := MsgData.empty 2 } }

/-- Insert the message of store `s` at QoS 1, under `s` as its mid, and send it. -/
def Traffic.insertByte (s : Nat) : Traffic :=
  .insert (UInt16.ofNat s) .q1 false (MsgStore.byte s) [] true

/-- The client of `idleTwo` after some messages are inserted. -/
def Machine.sending (l : List Nat) : Machine :=
  l.foldl (fun m s => (Traffic.insertByte s).exec Net.taking m) Machine.idleTwo

theorem runs_sending (ok : Machine → Traffic → Prop)
    (hok : ∀ m s, ok m (.insertByte s)) (l : List Nat) {m₀ m : Machine} (h : Runs ok m₀ m) :
    Runs ok m₀ (l.foldl (fun m s => (Traffic.insertByte s).exec Net.taking m) m) := by
  induction l generalizing m with
  | nil => exact h
  | cons s l ih => exact ih (h.next Net.taking _ (hok _ _))

/-- Two messages are sent and the newer one is acknowledged. -/
theorem window_respected_newest :
    let m := (Traffic.ack .puback (.puback 2)).exec Net.taking (Machine.sending [1, 2])
    FullQuota 2 Machine.idleTwo ∧ m.ctx.msgsOut.inflight.length = 1 ∧
      m.ctx.msgsOut.flying12 ≤ 2 := by
  have h₀ : FullQuota 2 Machine.idleTwo := ⟨⟨rfl, rfl, rfl⟩, rfl, rfl, rfl⟩
  have hack : Traffic.Orderly (Machine.sending [1, 2]) (.ack .puback (.puback 2)) :=
    ⟨2, _, rfl, rfl, rfl, (nomatch ·), .inl rfl⟩
  have hrun := (runs_sending Traffic.Orderly (fun _ _ => trivial) [1, 2] .start).next
    Net.taking _ hack
  exact ⟨h₀, rfl, window_respected (Nat.succ_pos 1) h₀ hrun⟩

/-- **The window is exceeded.** With a window of two, two messages in flight and two
queued, a PUBACK of the older message lets both queued ones in. -/
theorem window_exceeded :
    FullQuota 2 Machine.idleTwo ∧
      ¬ ∀ m, Runs Traffic.Answers Machine.idleTwo m → m.ctx.msgsOut.flying12 ≤ 2 := by
  refine ⟨⟨⟨rfl, rfl, rfl⟩, rfl, rfl, rfl⟩, fun hall => ?_⟩
  have hack : Traffic.Answers (Machine.sending [1, 2, 3, 4]) (.ack .puback (.puback 1)) :=
    ⟨1, _, rfl, rfl, rfl, rfl⟩
  have hrun := (runs_sending Traffic.Answers (fun _ _ => trivial) [1, 2, 3, 4] .start).next
    Net.taking _ hack
  exact absurd (hall _ hrun) (by decide)

end AdaptiveMqtt.Db
