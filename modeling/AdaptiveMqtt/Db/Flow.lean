import AdaptiveMqtt.Db.Held

/-!
# The flushes in closed form

The loops over `msgs_out.queued` and `msgs_out.storage` set the state of the message they
are at and move the head of the list. As long as no message is skipped these are the same
message, and what a loop does is said by how many messages it moves: `MsgData.moveUp` and
`MsgData.release`. A loop over storage skips none if the messages that are due come first,
which they do when a stored message is stamped by a clock that does not go back.
-/

namespace AdaptiveMqtt.Db

/-! ## One message -/

section Head

variable {f : ClientMsg → ClientMsg} {msg : ClientMsg} {rest : List ClientMsg} {md : MsgData}

theorem updateAt_of_notMem {addr : Nat} {l : List ClientMsg} (h : addr ∉ l.map (·.addr)) :
    updateAt addr f l = l := by
  refine (List.map_congr_left fun a ha => ?_).trans (List.map_id l)
  exact if_neg fun he => h (List.mem_map.mpr ⟨a, ha, he⟩)

theorem updateAt_head (hnd : ((msg :: rest).map (·.addr)).Nodup) :
    updateAt msg.addr f (msg :: rest) = f msg :: rest := by
  rw [List.map_cons, List.nodup_cons] at hnd
  show (if msg.addr = msg.addr then f msg else msg) :: updateAt msg.addr f rest = _
  rw [if_pos rfl, updateAt_of_notMem hnd.1]

theorem decrementQuota_eq (md : MsgData) :
    md.decrementQuota = { md with inflightQuota := md.inflightQuota - 1 } := by
  unfold MsgData.decrementQuota
  split
  · rfl
  · rename_i h0
    have hsame : md.inflightQuota - 1 = md.inflightQuota := by omega
    rw [hsame]

end Head

/-! ## The queue -/

/-- The first `k` messages of the queue go to flight, marked by `f`. -/
def MsgData.moveUp (md : MsgData) (f : ClientMsg → ClientMsg) (k : Nat) : MsgData :=
  { md with inflight := md.inflight ++ (md.queued.take k).map f
            queued := md.queued.drop k
            inflightQuota := md.inflightQuota - k }

section Queue

variable {f : ClientMsg → ClientMsg} {msg : ClientMsg} {rest : List ClientMsg} {md : MsgData}

theorem moveUp_zero (md : MsgData) (f : ClientMsg → ClientMsg) : md.moveUp f 0 = md := by
  simp [MsgData.moveUp]

theorem moveUp_moveUp (md : MsgData) (f : ClientMsg → ClientMsg) (j k : Nat) :
    (md.moveUp f j).moveUp f k = md.moveUp f (j + k) := by
  simp [MsgData.moveUp, List.take_add, Nat.sub_sub]

theorem moveUp_one (hq : md.queued = msg :: rest) (hnd : (md.queued.map (·.addr)).Nodup) :
    { md with queued := updateAt msg.addr f md.queued }.dequeueFirst = md.moveUp f 1 := by
  have hhead : updateAt msg.addr f md.queued = f msg :: rest := by
    rw [hq] at hnd ⊢
    exact updateAt_head hnd
  rw [hhead]
  simp [MsgData.dequeueFirst, decrementQuota_eq, MsgData.moveUp, hq]

theorem moveUp_queued_one (hq : md.queued = msg :: rest) : (md.moveUp f 1).queued = rest := by
  show md.queued.drop 1 = rest
  rw [hq]
  rfl

/-- `db__message_write_queued_out` stops at the end of the queue or of the quota. -/
theorem writeQueuedLoop_eq (l : List ClientMsg) (md : MsgData) (hl : md.queued = l)
    (hnd : (md.queued.map (·.addr)).Nodup) :
    ∃ k, writeQueuedLoop l md = md.moveUp ClientMsg.toPublish k ∧
      (md.queued.length ≤ k ∨ md.inflightMaximum ≠ 0 ∧ md.inflightQuota ≤ k) := by
  induction l generalizing md with
  | nil =>
    refine ⟨0, (moveUp_zero md _).symm, .inl ?_⟩
    rw [hl]
    exact le_rfl
  | cons msg rest ih =>
    unfold writeQueuedLoop
    split
    · rename_i hfull
      exact ⟨0, (moveUp_zero md _).symm, .inr ⟨hfull.1, hfull.2.le⟩⟩
    · simp only [moveUp_one hl hnd]
      have hrest := moveUp_queued_one (f := ClientMsg.toPublish) hl
      have hnd' : (rest.map (·.addr)).Nodup := by
        rw [hl, List.map_cons, List.nodup_cons] at hnd
        exact hnd.2
      obtain ⟨k, hk, hstop⟩ := ih _ hrest (by rw [hrest]; exact hnd')
      refine ⟨1 + k, by rw [hk, moveUp_moveUp], ?_⟩
      rcases hstop with hstop | ⟨hmax, hquota⟩
      · rw [hrest] at hstop
        rw [hl, List.length_cons]
        omega
      · change md.inflightQuota - 1 ≤ k at hquota
        exact .inr ⟨hmax, by omega⟩

/-- So does the queue move up behind an acknowledged message. -/
theorem deleteOutgoingLoop_eq (now : Int) (l : List ClientMsg) (i : Nat) (md : MsgData)
    (hl : md.queued = l) (hnd : (md.queued.map (·.addr)).Nodup) :
    ∃ k, deleteOutgoingLoop now l i md =
      md.moveUp (fun msg => { msg.toPublish with timestamp := now }) k := by
  induction l generalizing i md with
  | nil => exact ⟨0, (moveUp_zero md _).symm⟩
  | cons msg rest ih =>
    unfold deleteOutgoingLoop
    split
    · exact ⟨0, (moveUp_zero md _).symm⟩
    · simp only [moveUp_one hl hnd]
      have hrest := moveUp_queued_one (f := fun msg => { msg.toPublish with timestamp := now }) hl
      have hnd' : (rest.map (·.addr)).Nodup := by
        rw [hl, List.map_cons, List.nodup_cons] at hnd
        exact hnd.2
      obtain ⟨k, hk⟩ := ih (i + 1) _ hrest (by rw [hrest]; exact hnd')
      exact ⟨1 + k, by rw [hk, moveUp_moveUp]⟩

end Queue

/-! ## Storage -/

/-- `db__message_write_storage_out` lets the message go. -/
def ClientMsg.Due (now timeout : Int) (mode : TransferMode) (msg : ClientMsg) : Prop :=
  now - msg.storageTime > timeout ∨ mode = .normalMode

instance (now timeout : Int) (mode : TransferMode) (msg : ClientMsg) :
    Decidable (msg.Due now timeout mode) :=
  inferInstanceAs (Decidable (_ ∨ _))

/-- The first `k` stored messages go to flight and the next `d` to the queue. -/
def MsgData.release (md : MsgData) (k d : Nat) : MsgData :=
  { md with inflight := md.inflight ++ (md.storage.take k).map ClientMsg.toPublish
            queued := md.queued ++ (md.storage.drop k).take d
            storage := md.storage.drop (k + d)
            inflightQuota := md.inflightQuota - k }

section Storage

variable {msg : ClientMsg} {rest : List ClientMsg} {md : MsgData} {now timeout : Int}
  {mode : TransferMode}

theorem release_zero (md : MsgData) : md.release 0 0 = md := by
  simp [MsgData.release]

theorem release_fly (hs : md.storage = msg :: rest) (k d : Nat) :
    (md.release 1 0).release k d = md.release (k + 1) d := by
  have hquota : md.inflightQuota - 1 - k = md.inflightQuota - (k + 1) := by omega
  simp [MsgData.release, hs, hquota, Nat.add_right_comm k 1 d]

theorem release_wait (hs : md.storage = msg :: rest) (d : Nat) :
    (md.release 0 1).release 0 d = md.release 0 (d + 1) := by
  simp [MsgData.release, hs]

theorem release_one (hs : md.storage = msg :: rest) (hnd : (md.storage.map (·.addr)).Nodup) :
    { md with storage := updateAt msg.addr ClientMsg.toPublish md.storage }.destorageFirst true =
      md.release 1 0 := by
  have hhead : updateAt msg.addr ClientMsg.toPublish md.storage = msg.toPublish :: rest := by
    rw [hs] at hnd ⊢
    exact updateAt_head hnd
  rw [hhead]
  simp [MsgData.destorageFirst, decrementQuota_eq, MsgData.release, hs]

theorem release_queued (hs : md.storage = msg :: rest) :
    md.destorageFirst false = md.release 0 1 := by
  unfold MsgData.destorageFirst
  simp [MsgData.release, hs]

theorem writeStorageLoop_skip (l : List ClientMsg) (h : ∀ a ∈ l, ¬ a.Due now timeout mode) :
    writeStorageLoop now timeout mode l md = md := by
  induction l with
  | nil => rfl
  | cons msg rest ih =>
    have hcond : ¬ (now - msg.storageTime > timeout ∨ mode = .normalMode) :=
      h msg List.mem_cons_self
    unfold writeStorageLoop
    simp only [if_neg hcond]
    exact ih fun a ha => h a (List.mem_cons_of_mem msg ha)

/-- If the messages that are due come first, they leave in their order: to flight while there
is a quota, and to the queue from then on. -/
theorem writeStorageLoop_eq (l : List ClientMsg) (md : MsgData) (hl : md.storage = l)
    (hnd : (md.storage.map (·.addr)).Nodup)
    (hdue : l.Pairwise fun a b => b.Due now timeout mode → a.Due now timeout mode) :
    ∃ k d, writeStorageLoop now timeout mode l md = md.release k d ∧
      (d ≠ 0 → md.inflightMaximum ≠ 0 ∧ md.inflightQuota ≤ k) ∧
      (k ≠ 0 → (md.inflightMaximum = 0 ∨ md.inflightQuota ≠ 0) ∧
        ∃ a ∈ l, a.Due now timeout mode) ∧
      (∀ a ∈ l.take (k + d), a.Due now timeout mode) ∧
      ∀ a ∈ l.drop (k + d), ¬ a.Due now timeout mode := by
  induction l generalizing md with
  | nil =>
    exact ⟨0, 0, (release_zero md).symm, (absurd rfl ·), (absurd rfl ·), List.forall_mem_nil _,
      List.forall_mem_nil _⟩
  | cons msg rest ih =>
    rw [List.pairwise_cons] at hdue
    have hnd' : (rest.map (·.addr)).Nodup := by
      rw [hl, List.map_cons, List.nodup_cons] at hnd
      exact hnd.2
    by_cases hmsg : msg.Due now timeout mode
    · have hrest : ∀ md' : MsgData, md'.storage = rest → (md'.storage.map (·.addr)).Nodup :=
        fun md' h => by rw [h]; exact hnd'
      have hcond : now - msg.storageTime > timeout ∨ mode = .normalMode := hmsg
      unfold writeStorageLoop
      simp only [if_pos hcond]
      split
      · rename_i hfull
        -- the quota is used up, and stays so
        rw [release_queued hl]
        have hs : (md.release 0 1).storage = rest := by simp [MsgData.release, hl]
        obtain ⟨k, d, heq, -, hk, hgone, hleft⟩ := ih _ hs (hrest _ hs) hdue.2
        have hk0 : k = 0 := by
          by_contra hk0
          rcases (hk hk0).1 with hmax | hquota
          · exact hfull.1 hmax
          · exact hquota hfull.2
        subst hk0
        rw [Nat.zero_add] at hgone hleft
        refine ⟨0, d + 1, heq.trans (release_wait hl d), fun _ => ⟨hfull.1, hfull.2.le⟩,
          (absurd rfl ·), ?_, ?_⟩
        · rw [Nat.zero_add]
          exact List.forall_mem_cons.mpr ⟨hmsg, hgone⟩
        · rw [Nat.zero_add]
          exact hleft
      · rename_i hroom
        rw [release_one hl hnd]
        have hs : (md.release 1 0).storage = rest := by simp [MsgData.release, hl]
        obtain ⟨k, d, heq, hd, -, hgone, hleft⟩ := ih _ hs (hrest _ hs) hdue.2
        refine ⟨k + 1, d, heq.trans (release_fly hl k d), fun hd0 => ?_, fun _ => ⟨?_, ?_⟩, ?_, ?_⟩
        · obtain ⟨hmax, hquota⟩ := hd hd0
          change md.inflightQuota - 1 ≤ k at hquota
          exact ⟨hmax, by omega⟩
        · by_contra hno
          rw [not_or] at hno
          exact hroom ⟨hno.1, not_not.mp hno.2⟩
        · exact ⟨msg, List.mem_cons_self, hmsg⟩
        · rw [Nat.add_right_comm]
          exact List.forall_mem_cons.mpr ⟨hmsg, hgone⟩
        · rw [Nat.add_right_comm]
          exact hleft
    · have hnone : ∀ a ∈ msg :: rest, ¬ a.Due now timeout mode := by
        refine List.forall_mem_cons.mpr ⟨hmsg, fun a ha hd => hmsg (hdue.1 a ha hd)⟩
      refine ⟨0, 0, ?_, (absurd rfl ·), (absurd rfl ·), List.forall_mem_nil _, hnone⟩
      rw [release_zero]
      exact writeStorageLoop_skip _ hnone

end Storage

end AdaptiveMqtt.Db
