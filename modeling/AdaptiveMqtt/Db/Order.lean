import AdaptiveMqtt.Db.Reset

/-!
# The order of stored messages

A stored message goes straight to flight or through the queue, and what is in flight is
written in the order of the list. `Ranked` says that the messages of a set were sent, and
stand in the lists, in the order in which they were allocated. Every act keeps it, but for a
stored message that goes to flight while one of the set waits in the queue.
-/

namespace AdaptiveMqtt.Db

/-- The messages that were not sent, in the order in which they are to be. -/
def MsgData.unsent (md : MsgData) : List ClientMsg :=
  md.inflight.filter (MsgState.isPublish ·.state) ++ md.queued ++ md.storage

/-- The messages of `stored` are in order: in the lists, and those that were sent before
those that were not. -/
structure Ranked (stored : List Nat) (sent : List ClientMsg) (md : MsgData) : Prop where
  held : ((md.all.map (·.addr)).filter (· ∈ stored)).Pairwise (· < ·)
  sent : (((sent ++ md.unsent).map (·.addr)).filter (· ∈ stored)).Pairwise (· < ·)

section Ranked

variable {net : Net} {T : Discipline} {stored : List Nat} {sent l : List ClientMsg}
  {md md' : MsgData} {m m' : Machine}

theorem Ranked.sublist {sent' : List ClientMsg} (h : Ranked stored sent md)
    (hall : (md'.all.map (·.addr)).Sublist (md.all.map (·.addr)))
    (hsent : ((sent' ++ md'.unsent).map (·.addr)).Sublist ((sent ++ md.unsent).map (·.addr))) :
    Ranked stored sent' md' :=
  ⟨h.held.sublist (hall.filter _), h.sent.sublist (hsent.filter _)⟩

theorem Ranked.congr (h : Ranked stored sent md)
    (hall : md'.all.map (·.addr) = md.all.map (·.addr))
    (hunsent : md'.unsent.map (·.addr) = md.unsent.map (·.addr)) : Ranked stored sent md' := by
  refine h.sublist (hall ▸ List.Sublist.refl _) ?_
  rw [List.map_append, List.map_append, hunsent]

theorem unsent_sublist (md : MsgData) : md.unsent.Sublist md.all :=
  (List.filter_sublist.append_right _).append_right _

theorem unsent_subset {a : ClientMsg} (h : a ∈ md.unsent) : a ∈ md.all :=
  (unsent_sublist md).subset h

/-- The filter of a set does not see other messages. -/
theorem filter_stored {l₁ l₂ l : List ClientMsg} (hl : ∀ a ∈ l, a.addr ∉ stored) :
    ((l₁ ++ l ++ l₂).map (·.addr)).filter (· ∈ stored) =
      ((l₁ ++ l₂).map (·.addr)).filter (· ∈ stored) := by
  have hnil : (l.map (·.addr)).filter (· ∈ stored) = [] := by
    refine List.filter_eq_nil_iff.mpr fun x hx => ?_
    obtain ⟨a, ha, rfl⟩ := List.mem_map.mp hx
    simpa using hl a ha
  simp only [List.map_append, List.filter_append, hnil, List.append_nil]

/-- A message that is placed last is the greatest. -/
theorem pairwise_snoc {l : List ClientMsg} {msg : ClientMsg} {P : Nat → Bool}
    (h : ((l.map (·.addr)).filter P).Pairwise (· < ·)) (hlt : ∀ a ∈ l, a.addr < msg.addr) :
    (((l ++ [msg]).map (·.addr)).filter P).Pairwise (· < ·) := by
  rw [List.map_append, List.filter_append]
  refine List.pairwise_append.mpr ⟨h, ?_, fun x hx y hy => ?_⟩
  · exact (List.pairwise_singleton _ _).sublist List.filter_sublist
  · obtain ⟨a, ha, rfl⟩ := List.mem_map.mp (List.mem_of_mem_filter hx)
    have hy' := List.mem_of_mem_filter hy
    rw [List.map_singleton, List.mem_singleton] at hy'
    exact hy' ▸ hlt a ha

theorem ranked_place {msg : ClientMsg} {qos : Qos} {next : Nat} (haddr : msg.addr = next)
    (hstate : msg.state = .queued ∨ msg.state = .storage ∨ msg.state = publishState qos)
    (hset : msg.addr ∈ stored ↔ msg.state = .storage) (hall : ∀ a ∈ md.all, a.addr < next)
    (hsent : ∀ a ∈ sent, a.addr < next) (h : Ranked stored sent md) :
    Ranked stored sent (md.insert msg qos) := by
  obtain ⟨hin, hqueued, hstorage⟩ := insert_lists md msg qos
  have hpub : MsgState.isPublish (publishState qos) = true := publishState_isPublish qos
  have hother : ∀ s, msg.state = s → s ≠ .storage → ∀ a ∈ [msg], a.addr ∉ stored := by
    intro s hs hne a ha
    rw [List.mem_singleton.mp ha]
    exact fun hmem => hne (hs.symm.trans (hset.mp hmem))
  rcases hstate with hs | hs | hs
  · have hmsg := hother _ hs (by decide)
    rw [hs] at hin hqueued hstorage
    refine ⟨?_, ?_⟩
    · have hall' : (md.insert msg qos).all = md.inflight ++ md.queued ++ [msg] ++ md.storage := by
        simp [MsgData.all, hin, hqueued, hstorage]
      rw [hall', filter_stored hmsg]
      exact h.held
    · have hunsent : sent ++ (md.insert msg qos).unsent = sent ++
          md.inflight.filter (MsgState.isPublish ·.state) ++ md.queued ++ [msg] ++ md.storage := by
        simp [MsgData.unsent, hin, hqueued, hstorage]
      rw [hunsent, filter_stored hmsg]
      simpa [MsgData.unsent] using h.sent
  · rw [hs] at hin hqueued hstorage
    subst haddr
    refine ⟨?_, ?_⟩
    · have hall' : (md.insert msg qos).all = md.all ++ [msg] := by
        simp [MsgData.all, hin, hqueued, hstorage]
      rw [hall']
      exact pairwise_snoc h.held hall
    · have hunsent : sent ++ (md.insert msg qos).unsent = sent ++ md.unsent ++ [msg] := by
        simp [MsgData.unsent, hin, hqueued, hstorage]
      rw [hunsent]
      refine pairwise_snoc h.sent fun a ha => ?_
      rcases List.mem_append.mp ha with ha | ha
      · exact hsent a ha
      · exact hall a (unsent_subset ha)
  · have hne : publishState qos ≠ .storage ∧ publishState qos ≠ .queued := by
      cases qos <;> decide
    have hmsg := hother _ hs hne.1
    have hnot : ¬ (publishState qos = .queued ∨ publishState qos = .storage) :=
      fun h => h.elim hne.2 hne.1
    rw [hs, if_neg hnot] at hin
    rw [hs, if_neg hne.2] at hqueued
    rw [hs, if_neg hne.1] at hstorage
    refine ⟨?_, ?_⟩
    · have hall' : (md.insert msg qos).all = md.inflight ++ [msg] ++ (md.queued ++ md.storage) := by
        simp [MsgData.all, hin, hqueued, hstorage]
      rw [hall', filter_stored hmsg]
      simpa [MsgData.all] using h.held
    · have hunsent : sent ++ (md.insert msg qos).unsent =
          sent ++ md.inflight.filter (MsgState.isPublish ·.state) ++ [msg] ++
            (md.queued ++ md.storage) := by
        simp [MsgData.unsent, hin, hqueued, hstorage, List.filter_append, hs, hpub]
      rw [hunsent, filter_stored hmsg]
      simpa [MsgData.unsent] using h.sent

theorem filter_publish_map {f : ClientMsg → ClientMsg} {l : List ClientMsg}
    (hf : ∀ a, MsgState.isPublish (f a).state = true) :
    (l.map f).filter (MsgState.isPublish ·.state) = l.map f := by
  refine List.filter_eq_self.mpr fun a ha => ?_
  obtain ⟨b, -, rfl⟩ := List.mem_map.mp ha
  exact hf b

theorem ranked_moveUp {f : ClientMsg → ClientMsg} (hf : Marks f)
    (hpub : ∀ a, MsgState.isPublish (f a).state = true) (k : Nat) (h : Ranked stored sent md) :
    Ranked stored sent (md.moveUp f k) := by
  have hmap : ((md.queued.take k).map f).map (·.addr) = (md.queued.take k).map (·.addr) := by
    rw [List.map_map]
    exact List.map_congr_left fun a _ => hf.addr a
  have hqueue : (md.queued.take k).map (·.addr) ++ (md.queued.drop k).map (·.addr) =
      md.queued.map (·.addr) := by
    rw [← List.map_append, List.take_append_drop]
  refine h.congr ?_ ?_
  · simp only [MsgData.all, MsgData.moveUp, List.map_append, hmap, List.append_assoc]
    rw [← List.append_assoc ((md.queued.take k).map _), hqueue]
  · simp only [MsgData.unsent, MsgData.moveUp, List.filter_append, filter_publish_map hpub,
      List.map_append, hmap, List.append_assoc]
    rw [← List.append_assoc ((md.queued.take k).map _), hqueue]

/-- Stored messages may go to flight if none of the set waits in the queue. -/
theorem ranked_release {k d : Nat} (hover : k ≠ 0 → ∀ a ∈ md.queued, a.addr ∉ stored)
    (h : Ranked stored sent md) : Ranked stored sent (md.release k d) := by
  have hstorage : md.storage = md.storage.take k ++ ((md.storage.drop k).take d ++
      md.storage.drop (k + d)) := by
    rw [← List.drop_drop, List.take_append_drop, List.take_append_drop]
  have hmap : ((md.storage.take k).map ClientMsg.toPublish).map (·.addr) =
      (md.storage.take k).map (·.addr) := by
    rw [List.map_map]
    rfl
  have hpub : ∀ a : ClientMsg, MsgState.isPublish a.toPublish.state = true :=
    fun a => publishState_isPublish a.qos
  -- the queue may be put anywhere
  have hswap : ∀ pre post : List ClientMsg,
      ((pre ++ md.storage.take k ++ md.queued ++ post).map (·.addr)).filter (· ∈ stored) =
        ((pre ++ md.queued ++ md.storage.take k ++ post).map (·.addr)).filter (· ∈ stored) := by
    intro pre post
    by_cases hk : k = 0
    · subst hk
      simp
    · rw [filter_stored (hover hk), List.append_assoc (pre ++ md.queued),
        filter_stored (hover hk), List.append_assoc]
  refine ⟨?_, ?_⟩
  · have hnew : ((md.release k d).all.map (·.addr)) = ((md.inflight ++ md.storage.take k ++
        md.queued ++ ((md.storage.drop k).take d ++ md.storage.drop (k + d))).map (·.addr)) := by
      simp only [MsgData.all, MsgData.release, List.map_append, hmap, List.append_assoc]
    have hold : md.all = md.inflight ++ md.queued ++ md.storage.take k ++
        ((md.storage.drop k).take d ++ md.storage.drop (k + d)) := by
      rw [MsgData.all, List.append_assoc (md.inflight ++ md.queued), ← hstorage]
    rw [hnew, hswap, ← hold]
    exact h.held
  · have hnew : (sent ++ (md.release k d).unsent).map (·.addr) = (sent ++
        md.inflight.filter (MsgState.isPublish ·.state) ++ md.storage.take k ++ md.queued ++
        ((md.storage.drop k).take d ++ md.storage.drop (k + d))).map (·.addr) := by
      simp only [MsgData.unsent, MsgData.release, List.filter_append, filter_publish_map hpub,
        List.map_append, hmap, List.append_assoc]
    have hold : sent ++ md.unsent = sent ++ md.inflight.filter (MsgState.isPublish ·.state) ++
        md.queued ++ md.storage.take k ++
        ((md.storage.drop k).take d ++ md.storage.drop (k + d)) := by
      rw [MsgData.unsent, List.append_assoc (sent ++ _ ++ md.queued), ← hstorage]
      simp only [List.append_assoc]
    rw [hnew, hswap, ← hold]
    exact h.sent

theorem ranked_leave (item : ClientMsg) (h : Ranked stored sent md) :
    Ranked stored sent (md.remove item) := by
  have hin : (md.remove item).inflight.Sublist md.inflight := by
    rw [MsgData.remove_inflight_eq]
    exact List.eraseP_sublist
  have hqueued : (md.remove item).queued.Sublist md.queued :=
    (md.remove_window item).2.1 ▸ List.Sublist.refl _
  have hstorage : (md.remove item).storage.Sublist md.storage :=
    (MsgData.remove_storage md item) ▸ List.Sublist.refl _
  refine h.sublist (List.Sublist.map _ ?_) (List.Sublist.map _ ?_)
  · exact (hin.append hqueued).append hstorage
  · exact (List.Sublist.refl sent).append (((hin.filter _).append hqueued).append hstorage)

theorem ranked_mark {item : ClientMsg} {t : Int} (hnd : (md.inflight.map (·.addr)).Nodup)
    (hmem : item ∈ md.inflight) (hsent : MsgState.isPublish item.state = false)
    (h : Ranked stored sent md) :
    Ranked stored sent (md.write item.addr fun a =>
      { a with state := .waitForPubcomp, timestamp := t }) := by
  have hkeys := congrArg (List.map (·.addr)) (@map_key_write md item.addr
    (fun a => { a with state := .waitForPubcomp, timestamp := t }) fun _ => rfl)
  rw [← map_addr_eq, ← map_addr_eq] at hkeys
  have hfilter : ((updateAt item.addr (fun a => { a with state := .waitForPubcomp, timestamp := t })
      md.inflight).filter (MsgState.isPublish ·.state)).map (·.addr) =
      (md.inflight.filter (MsgState.isPublish ·.state)).map (·.addr) := by
    unfold updateAt
    rw [List.filter_map, List.map_map]
    have hsame : md.inflight.filter ((fun a : ClientMsg => MsgState.isPublish a.state) ∘ fun a =>
        if a.addr = item.addr then { a with state := .waitForPubcomp, timestamp := t } else a) =
        md.inflight.filter (MsgState.isPublish ·.state) := by
      refine List.filter_congr fun a ha => ?_
      show MsgState.isPublish (if a.addr = item.addr then _ else a : ClientMsg).state = _
      split
      · rename_i he
        rw [addr_inj hnd ha hmem he, hsent]
        rfl
      · rfl
    rw [hsame]
    refine List.map_congr_left fun a _ => ?_
    show (if a.addr = item.addr then _ else a : ClientMsg).addr = a.addr
    split <;> rfl
  refine h.congr hkeys ?_
  simp only [MsgData.unsent, MsgData.write, List.map_append, hfilter]

theorem ranked_loop {pre : List ClientMsg} (hs : Sound .mdOut m)
    (hin : m.ctx.msgsOut.inflight = pre ++ l) (hpre : ∀ a ∈ pre, a.Idle)
    (h : Ranked stored sent m.ctx.msgsOut) :
    Ranked stored (sent ++ publishesLoop net l m)
      (writeInflightLoop net l m).2.ctx.msgsOut := by
  have hnd := hs.nodup_inflight
  rw [hin, List.map_append] at hnd
  have hmem : ∀ a ∈ l, a ∈ m.ctx.msgsOut.inflight := fun a ha => hin ▸ List.mem_append_right _ ha
  have hndl := (List.nodup_append.mp hnd).2.1
  obtain ⟨hqueued, hstorage⟩ := (@written_waiting net m.ctx.msgsOut.queued
    m.ctx.msgsOut.storage).writeInflightLoop hs hndl hmem ⟨rfl, rfl⟩
  have hkeys := (@written_key net (m.ctx.msgsOut.all.map ClientMsg.key)).writeInflightLoop hs hndl
    hmem (List.Sublist.refl _)
  obtain ⟨pre', done, rest, hres, hpre', hdone, hsub, -⟩ := @loop_spec net pre m l _
    (fun _ h => h) hin hs.nodup_inflight hpre
  subst hdone
  have hidle : ∀ l : List ClientMsg, (∀ a ∈ l, a.Idle) →
      l.filter (MsgState.isPublish ·.state) = [] := by
    intro l hl
    refine List.filter_eq_nil_iff.mpr fun a ha => ?_
    rw [(hl a ha).1]
    exact Bool.false_ne_true
  -- what is published waited for it
  have hpub : (publishesLoop net (done ++ rest) m).Sublist (done.filter (MsgState.isPublish ·.state)) := by
    have hself : (publishesLoop net (done ++ rest) m).filter (MsgState.isPublish ·.state) =
        publishesLoop net (done ++ rest) m := List.filter_eq_self.mpr (publishesLoop_isPublish _ m)
    exact hself ▸ hsub.filter _
  refine h.sublist ?_ (List.Sublist.map _ ?_)
  · rw [map_addr_eq, map_addr_eq m.ctx.msgsOut.all]
    exact hkeys.map _
  · unfold MsgData.unsent
    rw [hres, hqueued, hstorage, hin, List.filter_append, List.filter_append,
      List.filter_append, hidle pre' hpre', hidle pre hpre, List.nil_append, List.nil_append,
      List.append_assoc sent]
    refine (List.Sublist.refl sent).append ?_
    rw [← List.append_assoc, ← List.append_assoc]
    exact ((hpub.append_right _).append_right _).append_right _

theorem ranked_messageWriteQueuedOut (hb : Based m) (h : Ranked stored sent m.ctx.msgsOut) :
    Ranked stored sent (messageWriteQueuedOut m).2.ctx.msgsOut := by
  unfold messageWriteQueuedOut
  split
  · exact h
  · obtain ⟨k, hk, -⟩ := writeQueuedLoop_eq m.ctx.msgsOut.queued m.ctx.msgsOut rfl hb.nodup_queued
    show Ranked stored sent (writeQueuedLoop m.ctx.msgsOut.queued m.ctx.msgsOut)
    rw [hk]
    exact ranked_moveUp marks_toPublish (fun a => publishState_isPublish a.qos) k h

theorem ranked_messageWriteInflightOutAll (hs : Sound .mdOut m)
    (h : Ranked stored sent m.ctx.msgsOut) :
    Ranked stored (sent ++ publishesAll net m)
      (messageWriteInflightOutAll net m).2.ctx.msgsOut := by
  unfold publishesAll messageWriteInflightOutAll
  split
  · rwa [List.append_nil]
  · exact ranked_loop hs (List.nil_append _).symm (List.forall_mem_nil _) h

theorem ranked_act (hplaces : ∀ a, T.places a → (a.addr ∈ stored ↔ a.state = .storage))
    (hmarks : ∀ a ∈ m.ctx.msgsOut.inflight, T.marks a → MsgState.isPublish a.state = false)
    (hovertakes : ∀ q, T.overtakes q → ∀ a ∈ q, a.addr ∉ stored) (hs : Sound .mdOut m)
    (hsplit : m.ctx.state = .active → Split m.ctx.msgsOut.inflight)
    (hsent : ∀ a ∈ sent, a.addr < m.db.nextMsg) (ha : Act net T m l m')
    (h : Ranked stored sent m.ctx.msgsOut) : Ranked stored (sent ++ l) m'.ctx.msgsOut := by
  cases ha with
  | still ha q hmd =>
    rw [List.append_nil, hmd]
    exact h.congr rfl rfl
  | place ha hplace haddr hlt hdup hstate htime hmd =>
    rw [List.append_nil, hmd]
    exact ranked_place haddr hstate (hplaces _ hplace) hs.fresh hsent h
  | moveUp ha hf hpub k hmd =>
    rw [List.append_nil, hmd]
    exact ranked_moveUp hf hpub k h
  | release ha k d hover hmd =>
    rw [List.append_nil, hmd]
    exact ranked_release (fun hk => hovertakes _ (hover hk)) h
  | leave ha hitem hmd =>
    rw [List.append_nil, hmd]
    exact ranked_leave _ h
  | mark ha hitem hmark t hmd =>
    rw [List.append_nil, hmd]
    exact ranked_mark hs.nodup_inflight hitem (hmarks _ hitem hmark) h
  | latest =>
    unfold publishesLatest messageWriteInflightOutLatest
    split
    · rwa [List.append_nil]
    · rename_i hon
      obtain ⟨pre, post, hin, hpre, hpost⟩ := hsplit (not_not.mp fun hne => hon (.inl hne))
      obtain ⟨p, q, rfl, hlatest⟩ := latestFrom_split hpre hpost
      rw [hin, hlatest]
      exact ranked_loop hs (hin.trans (List.append_assoc p q post))
        (fun a ha => hpre a (List.mem_append_left q ha)) h
  | all => exact ranked_messageWriteInflightOutAll hs h

/-- Messages that are not allocated yet may be in the set. -/
theorem Ranked.extend {new : List Nat} {next : Nat} (hall : ∀ a ∈ md.all, a.addr < next)
    (hsent : ∀ a ∈ sent, a.addr < next) (hnew : ∀ x ∈ new, next ≤ x)
    (h : Ranked stored sent md) : Ranked (stored ++ new) sent md := by
  have hfilter : ∀ l : List ClientMsg, (∀ a ∈ l, a.addr < next) →
      (l.map (·.addr)).filter (· ∈ stored ++ new) = (l.map (·.addr)).filter (· ∈ stored) := by
    intro l hl
    refine List.filter_congr fun x hx => ?_
    obtain ⟨a, ha, rfl⟩ := List.mem_map.mp hx
    have hnot : a.addr ∉ new := fun hmem => absurd (hl a ha) (hnew _ hmem).not_gt
    simp [hnot]
  refine ⟨?_, ?_⟩
  · rw [hfilter _ hall]
    exact h.held
  · rw [hfilter]
    · exact h.sent
    · intro a ha
      exact (List.mem_append.mp ha).elim (hsent a) fun ha => hall a (unsent_subset ha)

end Ranked

/-! ## The hand-over -/

section HandOver

variable {found ctx : Context} {config : Config}

theorem dequeueFirst_line (md : MsgData) :
    md.dequeueFirst.inflight ++ md.dequeueFirst.queued = md.inflight ++ md.queued := by
  unfold MsgData.dequeueFirst
  split
  · rfl
  · rename_i msg rest hq
    obtain ⟨hin, hqueued, -⟩ := decrementQuota_fields
      { md with queued := rest, inflight := md.inflight ++ [msg] }
    rw [hin, hqueued, hq]
    simp

/-- The loop over the queue moves messages up, whatever it does to their states. -/
theorem resetQueuedLoop_addr (l : List ClientMsg) (ctx : Context) :
    ((resetQueuedLoop config .mdOut l ctx).msgsOut.inflight ++
        (resetQueuedLoop config .mdOut l ctx).msgsOut.queued).map (·.addr) =
      (ctx.msgsOut.inflight ++ ctx.msgsOut.queued).map (·.addr) := by
  induction l generalizing ctx with
  | nil => rfl
  | cons msg rest ih =>
    rw [resetQueuedLoop_cons, ih]
    obtain ⟨hcin, hcq, -⟩ := count_lists ctx.msgsOut msg msg.qos
    unfold resetRound
    simp only
    split
    · let md : MsgData := { ctx.msgsOut.count msg msg.qos with
        queued := updateAt msg.addr ClientMsg.toPublish (ctx.msgsOut.count msg msg.qos).queued }
      have hmd : md.queued.map (·.addr) = ctx.msgsOut.queued.map (·.addr) := by
        rw [map_addr_eq, map_addr_eq ctx.msgsOut.queued, map_key_updateAt writes_toPublish, hcq]
      refine (congrArg (List.map (·.addr)) (dequeueFirst_line md)).trans ?_
      rw [List.map_append, List.map_append, hmd, show md.inflight = _ from hcin]
    · show ((ctx.msgsOut.count msg msg.qos).inflight ++ (ctx.msgsOut.count msg msg.qos).queued).map
        _ = _
      rw [hcin, hcq]

/-- A hand-over keeps the order of the lists. -/
theorem reconnectResetOutgoing_addr (hnd : (found.msgsOut.all.map (·.addr)).Nodup) :
    (reconnectResetOutgoing config (ctx.entering found)).msgsOut.all.map (·.addr) =
      found.msgsOut.all.map (·.addr) := by
  have hin : (found.msgsOut.inflight.map (·.addr)).Nodup := by
    refine hnd.sublist (List.Sublist.map _ ?_)
    exact (List.sublist_append_left _ _).trans (List.sublist_append_left _ _)
  obtain ⟨hfly, hqueue⟩ := resetInflightOutLoop_lists found.msgsOut.inflight []
    (ctx.entering found).msgsOut.restart rfl hin
  have hline := @resetQueuedLoop_addr config found.msgsOut.queued
    { ctx.entering found with
      msgsOut := resetInflightOutLoop found.msgsOut.inflight (ctx.entering found).msgsOut.restart }
  have hresend : (found.msgsOut.inflight.map ClientMsg.resend).map (·.addr) =
      found.msgsOut.inflight.map (·.addr) := by
    rw [List.map_map]
    refine List.map_congr_left fun a _ => ?_
    show a.resend.addr = a.addr
    rw [← ClientMsg.key_addr, writes_resend.key, ClientMsg.key_addr]
  have hline' : ((reconnectResetOutgoing config (ctx.entering found)).msgsOut.inflight ++
      (reconnectResetOutgoing config (ctx.entering found)).msgsOut.queued).map (·.addr) =
      (found.msgsOut.inflight ++ found.msgsOut.queued).map (·.addr) := by
    refine hline.trans ?_
    rw [List.map_append, List.map_append, hfly, hqueue, List.nil_append, hresend]
    rfl
  rw [MsgData.all, List.map_append, hline', (reconnectResetOutgoing_keys _ _ _).2,
    ← List.map_append]
  rfl

theorem ranked_handOver {stored : List Nat} {sent : List ClientMsg} {m : Machine}
    (hnd : (found.msgsOut.all.map (·.addr)).Nodup) (hempty : m.ctx.msgsOut.all = [])
    (h : Ranked stored sent found.msgsOut) :
    Ranked stored [] (handOver found m).1.ctx.msgsOut := by
  have hall : ((handOver found m).1.ctx.msgsOut.all.map (·.addr)).Sublist
      (found.msgsOut.all.map (·.addr)) := by
    rcases handOver_msgsOut found m with he | he
    · rw [he, hempty]
      exact List.nil_sublist _
    · rw [he, reconnectResetOutgoing_addr hnd]
  refine ⟨h.held.sublist (hall.filter _), h.held.sublist (List.Sublist.filter _ ?_)⟩
  exact ((unsent_sublist _).map _).trans hall

end HandOver

/-! ## What is put into storage -/

/-- The address of the message that an insertion puts into storage. -/
def Traffic.stored (m : Machine) : Traffic → List Nat
  | insert _ qos retain stored _ _ =>
    match m.ctx.id with
    | none => []
    | some id =>
      if insertRefused .mdOut qos retain stored id m = none then
        match (insertState .mdOut qos stored m).1 with
        | .ok (.storage, _) => [m.db.nextMsg]
        | _ => []
      else []
  | _ => []

section Stored

variable {net : Net} {m : Machine} {t : Traffic}

theorem stored_cases (t : Traffic) (m : Machine) :
    t.stored m = [] ∨ t.stored m = [m.db.nextMsg] := by
  unfold Traffic.stored
  split
  · split
    · exact .inl rfl
    · split
      · split
        · exact .inr rfl
        · exact .inl rfl
      · exact .inl rfl
  · exact .inl rfl

theorem eq_of_mem_stored {x : Nat} (hx : x ∈ t.stored m) : x = m.db.nextMsg := by
  rcases stored_cases t m with he | he
  · rw [he] at hx
    exact nomatch hx
  · rw [he] at hx
    exact List.mem_singleton.mp hx

theorem mem_stored_iff {mid : UInt16} {qos : Qos} {retain update : Bool} {stored : MsgStore}
    {properties : List Property} {id : Bytes} {state : MsgState} {rc : Rc} {m₁ : Machine}
    {msg : ClientMsg} {old : List Nat} (hold : ∀ x ∈ old, x < m.db.nextMsg)
    (hid : m.ctx.id = some id) (hrefused : insertRefused .mdOut qos retain stored id m = none)
    (hstate : insertState .mdOut qos stored m = (.ok (state, rc), m₁))
    (hnew : NewMsg m₁ mid qos stored state msg) :
    msg.addr ∈ old ++ (Traffic.insert mid qos retain stored properties update).stored m ↔
      msg.state = .storage := by
  have hf : Frame (loose Net.taking) m (insertState .mdOut qos stored m).2 :=
    frame_insertState _ _ _ _
  rw [hstate] at hf
  have haddr : msg.addr = m.db.nextMsg := hnew.addr.trans hf.nextMsg
  have hnot : msg.addr ∉ old := fun hmem => absurd (hold _ hmem) (haddr ▸ lt_irrefl _)
  have hlist : (Traffic.insert mid qos retain stored properties update).stored m =
      if state = .storage then [m.db.nextMsg] else [] := by
    simp only [Traffic.stored, hid, hrefused, hstate, if_true]
    cases state <;> rfl
  rw [hlist, hnew.state, List.mem_append]
  split
  · rename_i hs
    exact ⟨fun _ => hs, fun _ => .inr (haddr ▸ List.mem_cons_self)⟩
  · rename_i hs
    exact ⟨fun h => h.elim (fun h => absurd h hnot) (nomatch ·), fun h => absurd h hs⟩

theorem around_messageWriteQueuedOut (m : Machine) : Around m (messageWriteQueuedOut m).2 := by
  unfold messageWriteQueuedOut
  split
  · exact .refl m
  · exact around_onMsgs m _

theorem around_messageWriteStorageOut (m : Machine) : Around m (messageWriteStorageOut m).2 := by
  unfold messageWriteStorageOut
  split
  · exact .refl m
  · exact ⟨rfl, Nat.le_succ _, le_rfl, rfl⟩

/-- An insertion that gets to place a message allocates it. -/
theorem insert_nextMsg {mid : UInt16} {qos : Qos} {retain update : Bool} {stored : MsgStore}
    {properties : List Property} {id : Bytes} {state : MsgState} {rc : Rc} {m₁ : Machine}
    (hid : m.ctx.id = some id) (hrefused : insertRefused .mdOut qos retain stored id m = none)
    (hstate : insertState .mdOut qos stored m = (.ok (state, rc), m₁)) :
    m.db.nextMsg <
      (messageInsert net mid .mdOut qos retain stored properties update m).2.db.nextMsg := by
  have ha := around_insertState m qos stored
  rw [hstate] at ha
  have hnext : (insertMsg mid .mdOut qos retain stored properties state m₁).db.nextMsg =
      m₁.db.nextMsg + 1 := by
    unfold insertMsg
    simp only
    split <;> rfl
  have hafter := around_insertAfter (insertMsg mid .mdOut qos retain stored properties state m₁) qos
    retain stored id
  have hlt : m.db.nextMsg < (insertAfter .mdOut qos retain stored id
      (insertMsg mid .mdOut qos retain stored properties state m₁)).db.nextMsg := by
    have hle := ha.nextMsg
    have hle' := hafter.nextMsg
    rw [hnext] at hle'
    exact (Nat.lt_succ_of_le hle).trans_le hle'
  unfold messageInsert
  simp only [hid, hrefused, hstate]
  split
  · have hlatest := around_messageWriteInflightOutLatest net (insertAfter .mdOut qos retain stored id
      (insertMsg mid .mdOut qos retain stored properties state m₁))
    split
    · exact hlt.trans_le hlatest.nextMsg
    · have hqueued := hlatest.trans (around_messageWriteQueuedOut _)
      split
      · exact hlt.trans_le hqueued.nextMsg
      · exact hlt.trans_le (hqueued.trans (around_messageWriteStorageOut _)).nextMsg
  · exact hlt

theorem stored_lt : ∀ x ∈ t.stored m, x < (t.exec net m).db.nextMsg := by
  intro x hx
  rw [eq_of_mem_stored hx]
  unfold Traffic.stored at hx
  split at hx
  · split at hx
    · exact nomatch hx
    · rename_i hid
      split at hx
      · rename_i hrefused
        split at hx
        · rename_i rc hs
          exact insert_nextMsg hid hrefused (Prod.ext hs rfl)
        · exact nomatch hx
      · exact nomatch hx
  · exact nomatch hx

end Stored

end AdaptiveMqtt.Db
