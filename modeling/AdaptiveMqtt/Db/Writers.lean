import AdaptiveMqtt.Db.Acts

/-!
# The two writers

`db__message_write_inflight_out_all` walks all messages in flight and
`db__message_write_inflight_out_latest` only the last of them, from the end back to the
first that does not wait for publish. They do the same where the messages that were sent
stand before those that were not (`MsgData.Split`), and every act keeps it so.
-/

namespace AdaptiveMqtt.Db

/-- `db__message_write_inflight_out_single` passes the message by. -/
def ClientMsg.Idle (msg : ClientMsg) : Prop :=
  MsgState.isPublish msg.state = false ∧ msg.state ≠ .resendPubrel

/-- Of the messages in flight those that were sent come first. -/
def Split (l : List ClientMsg) : Prop :=
  ∃ pre post, l = pre ++ post ∧ (∀ a ∈ pre, a.Idle) ∧ ∀ a ∈ post, MsgState.isPublish a.state = true

/-! ## One message -/

/-- What becomes of a message when it is written with success. -/
inductive Treated (msg : ClientMsg) (l : List ClientMsg) : List ClientMsg → Prop where
  | same (h : msg.Idle) : Treated msg l l
  | gone : Treated msg l (l.eraseP (·.addr = msg.addr))
  | sent {f : ClientMsg → ClientMsg} (haddr : ∀ a, (f a).addr = a.addr) (hidle : ∀ a, (f a).Idle) :
    Treated msg l (updateAt msg.addr f l)

section Single

variable (net : Net) (msg : ClientMsg) (m : Machine)

theorem treated_afterPublish (next : Option MsgState) (r : Rc × Machine)
    (hnext : ∀ s, next = some s → MsgState.isPublish s = false ∧ s ≠ .resendPubrel) :
    ((afterPublish msg next r).1 = Rc.success → Treated msg r.2.ctx.msgsOut.inflight
      (afterPublish msg next r).2.ctx.msgsOut.inflight) ∧
    ((afterPublish msg next r).1 ≠ Rc.success →
      (afterPublish msg next r).2 = r.2 ∧ r.1 ≠ Rc.success) := by
  have hgone : ∀ e, Treated msg r.2.ctx.msgsOut.inflight
      (removeOut msg e r.2).ctx.msgsOut.inflight := by
    intro e
    show Treated msg _ (r.2.ctx.msgsOut.remove msg).inflight
    rw [MsgData.remove_inflight_eq]
    exact .gone
  unfold afterPublish
  split
  · cases next with
    | none => exact ⟨fun _ => hgone _, fun h => absurd rfl h⟩
    | some s => exact ⟨fun _ => .sent (fun _ => rfl) fun _ => hnext s rfl, fun h => absurd rfl h⟩
  · rename_i hrc
    split
    · exact ⟨fun _ => hgone _, fun h => absurd rfl h⟩
    · exact ⟨fun h => absurd h hrc, fun _ => ⟨rfl, hrc⟩⟩

theorem treated_single :
    ((messageWriteInflightOutSingle net msg m).1 = Rc.success →
      Treated msg m.ctx.msgsOut.inflight
        (messageWriteInflightOutSingle net msg m).2.ctx.msgsOut.inflight) ∧
    ((messageWriteInflightOutSingle net msg m).1 ≠ Rc.success →
      (messageWriteInflightOutSingle net msg m).2.ctx.msgsOut.inflight = m.ctx.msgsOut.inflight ∧
      publishesSingle net msg m = []) := by
  -- the three publish states
  have hpublish : ∀ next : Option MsgState,
      (∀ s, next = some s → MsgState.isPublish s = false ∧ s ≠ .resendPubrel) →
      let r := afterPublish msg next (sendPublish net (msg.publish m.db.nowRealS) m)
      (r.1 = Rc.success → Treated msg m.ctx.msgsOut.inflight r.2.ctx.msgsOut.inflight) ∧
      (r.1 ≠ Rc.success → r.2.ctx.msgsOut.inflight = m.ctx.msgsOut.inflight ∧
        publishesSingle net msg m = []) := by
    intro next hnext r
    have hlists := sendPublish_msgsOut net (msg.publish m.db.nowRealS) m
    obtain ⟨hok, hbad⟩ := treated_afterPublish msg next
      (sendPublish net (msg.publish m.db.nowRealS) m) hnext
    rw [hlists] at hok
    refine ⟨hok, fun hrc => ?_⟩
    obtain ⟨hsame, hsend⟩ := hbad hrc
    refine ⟨by rw [hsame, hlists], ?_⟩
    unfold publishesSingle
    simp only
    split
    · rfl
    · exact if_neg fun h => hsend h.2
  unfold messageWriteInflightOutSingle
  simp only
  split
  · refine ⟨fun _ => ?_, fun h => absurd rfl h⟩
    split
    · show Treated msg _ (m.ctx.msgsOut.incrementQuota.remove msg).inflight
      rw [MsgData.remove_inflight_eq, MsgData.incrementQuota_inflight]
      exact .gone
    · show Treated msg _ (m.ctx.msgsOut.remove msg).inflight
      rw [MsgData.remove_inflight_eq]
      exact .gone
  · split
    · exact hpublish none (fun _ h => nomatch h)
    · exact hpublish (some .waitForPuback) (fun s h => by cases h; exact ⟨rfl, (nomatch ·)⟩)
    · exact hpublish (some .waitForPubrec) (fun s h => by cases h; exact ⟨rfl, (nomatch ·)⟩)
    · rename_i hexp _ hs
      have hnone : publishesSingle net msg m = [] := by
        unfold publishesSingle
        simp only [hs]
        split
        · rfl
        · exact if_neg fun h => nomatch h.1
      split
      · exact ⟨fun _ => .sent (fun _ => rfl) fun _ => ⟨rfl, (nomatch ·)⟩, fun h => absurd rfl h⟩
      · rename_i hrc
        exact ⟨fun h => absurd h hrc, fun _ => ⟨rfl, hnone⟩⟩
    · rename_i h0 h1 h2 h3
      have hidle : msg.Idle := by
        refine ⟨?_, h3⟩
        revert h0 h1 h2
        cases msg.state <;> simp [MsgState.isPublish]
      exact ⟨fun _ => .same hidle, fun h => absurd rfl h⟩

theorem publishesSingle_sublist : (publishesSingle net msg m).Sublist [msg] ∧
    ∀ a ∈ publishesSingle net msg m, MsgState.isPublish a.state = true := by
  unfold publishesSingle
  simp only
  split
  · exact ⟨List.nil_sublist _, fun a h => nomatch h⟩
  · split
    · rename_i hpub
      refine ⟨List.Sublist.refl _, fun a ha => ?_⟩
      rw [List.mem_singleton.mp ha]
      exact hpub.1
    · exact ⟨List.nil_sublist _, fun a h => nomatch h⟩

end Single

/-! ## The loop -/

section Loop

variable {net : Net} {msg : ClientMsg} {pre rest : List ClientMsg}

theorem eraseP_middle (hnd : ((pre ++ msg :: rest).map (·.addr)).Nodup) :
    (pre ++ msg :: rest).eraseP (·.addr = msg.addr) = pre ++ rest := by
  have hpre : ∀ a ∈ pre, ¬ (decide (a.addr = msg.addr)) = true := by
    intro a ha he
    rw [List.map_append, List.nodup_append] at hnd
    exact hnd.2.2 _ (List.mem_map.mpr ⟨a, ha, rfl⟩) _ (List.mem_map.mpr ⟨msg, List.mem_cons_self, rfl⟩)
      (by simpa using he)
  rw [List.eraseP_append_right _ hpre, List.eraseP_cons_of_pos (by simp)]

theorem updateAt_middle {f : ClientMsg → ClientMsg}
    (hnd : ((pre ++ msg :: rest).map (·.addr)).Nodup) :
    updateAt msg.addr f (pre ++ msg :: rest) = pre ++ f msg :: rest := by
  rw [List.map_append, List.nodup_append] at hnd
  have hpre : msg.addr ∉ pre.map (·.addr) := fun h =>
    hnd.2.2 _ h _ (List.mem_map.mpr ⟨msg, List.mem_cons_self, rfl⟩) rfl
  have happ : updateAt msg.addr f (pre ++ msg :: rest) =
      updateAt msg.addr f pre ++ updateAt msg.addr f (msg :: rest) := List.map_append
  rw [happ, updateAt_of_notMem hpre, updateAt_head hnd.2.1]

theorem Treated.middle {l' : List ClientMsg} {Q : ClientMsg → Prop} (hQ : ∀ a, a.Idle → Q a)
    (h : Treated msg (pre ++ msg :: rest) l')
    (hnd : ((pre ++ msg :: rest).map (·.addr)).Nodup) (hpre : ∀ a ∈ pre, Q a) :
    ∃ pre', l' = pre' ++ rest ∧ (∀ a ∈ pre', Q a) ∧ (l'.map (·.addr)).Nodup := by
  cases h with
  | same hidle =>
    refine ⟨pre ++ [msg], by simp, fun a ha => ?_, hnd⟩
    rcases List.mem_append.mp ha with ha | ha
    · exact hpre a ha
    · rw [List.mem_singleton.mp ha]
      exact hQ msg hidle
  | gone =>
    rw [eraseP_middle hnd]
    refine ⟨pre, rfl, hpre, hnd.sublist (List.Sublist.map _ ?_)⟩
    exact (List.Sublist.refl pre).append (List.sublist_cons_self msg rest)
  | @sent f haddr hidle =>
    rw [updateAt_middle hnd]
    refine ⟨pre ++ [f msg], by simp, fun a ha => ?_, ?_⟩
    · rcases List.mem_append.mp ha with ha | ha
      · exact hpre a ha
      · rw [List.mem_singleton.mp ha]
        exact hQ _ (hidle msg)
    · simpa [haddr msg] using hnd

/-- The loop treats messages one after the other until one fails. It publishes some of those
it has treated, in their order. -/
theorem loop_spec {m : Machine} {l : List ClientMsg} {Q : ClientMsg → Prop}
    (hQ : ∀ a, a.Idle → Q a) (hin : m.ctx.msgsOut.inflight = pre ++ l)
    (hnd : (m.ctx.msgsOut.inflight.map (·.addr)).Nodup) (hpre : ∀ a ∈ pre, Q a) :
    ∃ pre' done rest, (writeInflightLoop net l m).2.ctx.msgsOut.inflight = pre' ++ rest ∧
      (∀ a ∈ pre', Q a) ∧ l = done ++ rest ∧ (publishesLoop net l m).Sublist done ∧
      ((writeInflightLoop net l m).1 = Rc.success → rest = []) := by
  induction l generalizing m pre with
  | nil => exact ⟨pre, [], [], hin, hpre, rfl, List.Sublist.refl _, fun _ => rfl⟩
  | cons msg rest ih =>
    obtain ⟨hok, hbad⟩ := treated_single net msg m
    unfold writeInflightLoop publishesLoop
    simp only
    by_cases hrc : (messageWriteInflightOutSingle net msg m).1 = Rc.success
    · rw [if_neg (not_not.mpr hrc), if_neg (not_not.mpr hrc)]
      have htreated := hok hrc
      rw [hin] at htreated hnd
      obtain ⟨pre₁, hin₁, hpre₁, hnd₁⟩ := htreated.middle hQ hnd hpre
      obtain ⟨pre', done, rest', hres, hpre', hl, hsub, hdone⟩ := ih hin₁ hnd₁ hpre₁
      refine ⟨pre', msg :: done, rest', hres, hpre', by rw [hl]; rfl, ?_, hdone⟩
      exact (publishesSingle_sublist net msg m).1.append hsub
    · rw [if_pos hrc, if_pos hrc]
      obtain ⟨hsame, hnone⟩ := hbad hrc
      refine ⟨pre, [], msg :: rest, hsame.trans hin, hpre, rfl, ?_, fun h => absurd h hrc⟩
      rw [hnone]
      exact List.nil_sublist _

theorem publishesLoop_isPublish (l : List ClientMsg) (m : Machine) :
    ∀ a ∈ publishesLoop net l m, MsgState.isPublish a.state = true := by
  induction l generalizing m with
  | nil => exact fun a h => nomatch h
  | cons msg rest ih =>
    intro a ha
    unfold publishesLoop at ha
    simp only at ha
    rcases List.mem_append.mp ha with ha | ha
    · exact (publishesSingle_sublist net msg m).2 a ha
    · split at ha
      · exact nomatch ha
      · exact ih _ a ha

end Loop

/-! ## Where the fast writer starts -/

section Latest

variable {pre post : List ClientMsg}

/-- The fast writer starts at the first unsent message, or before. -/
theorem latestFrom_split (hpre : ∀ a ∈ pre, a.Idle)
    (hpost : ∀ a ∈ post, MsgState.isPublish a.state = true) :
    ∃ p q, pre = p ++ q ∧ latestFrom (pre ++ post) = q ++ post := by
  cases pre with
  | nil =>
    refine ⟨[], [], rfl, ?_⟩
    cases post with
    | nil => rfl
    | cons head tail =>
      have hall : tail.all (MsgState.isPublish ·.state) = true :=
        List.all_eq_true.mpr fun a ha => hpost a (List.mem_cons_of_mem head ha)
      simp only [List.nil_append, latestFrom, hall, if_true]
  | cons head pre =>
    rw [List.cons_append, latestFrom]
    split
    · exact ⟨[], head :: pre, rfl, rfl⟩
    · rename_i hall
      refine ⟨head :: pre, [], (List.append_nil _).symm, ?_⟩
      have hne : pre ≠ [] := by
        rintro rfl
        exact hall (List.all_eq_true.mpr fun a ha => hpost a ha)
      obtain ⟨init, last, rfl⟩ : ∃ init last, pre = init ++ [last] :=
        ⟨pre.dropLast, pre.getLast hne, (List.dropLast_append_getLast hne).symm⟩
      have hlast : MsgState.isPublish last.state = false :=
        (hpre last (List.mem_cons_of_mem head (List.mem_append_right _ List.mem_cons_self))).1
      have hrev : ((init ++ [last] ++ post).reverse) = post.reverse ++ last :: init.reverse := by
        simp
      rw [hrev, List.takeWhile_append_of_pos fun a ha => hpost a (List.mem_reverse.mp ha),
        List.takeWhile_cons_of_neg (by simp [hlast]), List.append_nil, List.reverse_reverse]
      rfl

theorem split_suffix {rest : List ClientMsg} (hpre : ∀ a ∈ pre, a.Idle)
    (hpost : ∀ a ∈ post, MsgState.isPublish a.state = true) (h : rest <:+ pre ++ post) :
    Split rest := by
  obtain ⟨t, ht⟩ := h
  rcases List.append_eq_append_iff.mp ht with ⟨u, rfl, rfl⟩ | ⟨u, rfl, rfl⟩
  · exact ⟨u, post, rfl, fun a ha => hpre a (List.mem_append_right _ ha), hpost⟩
  · exact ⟨[], rest, rfl, List.forall_mem_nil _, fun a ha => hpost a (List.mem_append_right _ ha)⟩

theorem Split.append_idle {l : List ClientMsg} (h : Split l) (hpre : ∀ a ∈ pre, a.Idle) :
    Split (pre ++ l) := by
  obtain ⟨p, q, rfl, hp, hq⟩ := h
  refine ⟨pre ++ p, q, by simp, fun a ha => ?_, hq⟩
  rcases List.mem_append.mp ha with ha | ha
  · exact hpre a ha
  · exact hp a ha

theorem Split.append {l : List ClientMsg} (h : Split l)
    (hpost : ∀ a ∈ post, MsgState.isPublish a.state = true) : Split (l ++ post) := by
  obtain ⟨p, q, rfl, hp, hq⟩ := h
  refine ⟨p, q ++ post, by simp, hp, fun a ha => ?_⟩
  rcases List.mem_append.mp ha with ha | ha
  · exact hq a ha
  · exact hpost a ha

theorem Split.sublist {l l' : List ClientMsg} (h : Split l) (hs : l'.Sublist l) : Split l' := by
  obtain ⟨p, q, rfl, hp, hq⟩ := h
  obtain ⟨p', q', rfl, hp', hq'⟩ := List.sublist_append_iff.mp hs
  exact ⟨p', q', rfl, fun a ha => hp a (hp'.subset ha), fun a ha => hq a (hq'.subset ha)⟩

end Latest

/-! ## The writers agree -/

section Agree

variable (net : Net) (m : Machine) {msg : ClientMsg} {pre : List ClientMsg}

theorem single_idle (hidle : msg.Idle) (hexp : msg.store.messageExpiryTime = 0) :
    messageWriteInflightOutSingle net msg m = (Rc.success, m) ∧ publishesSingle net msg m = [] := by
  obtain ⟨hpub, hrel⟩ := hidle
  have hstate : ∀ s, MsgState.isPublish s = true → msg.state ≠ s := by
    rintro s hs rfl
    exact absurd (hpub.symm.trans hs) (by simp)
  refine ⟨?_, ?_⟩
  · unfold messageWriteInflightOutSingle
    simp only [hexp, ne_eq, not_true, false_and, if_false]
    split
    · rename_i hs
      exact absurd hs (hstate _ rfl)
    · rename_i hs
      exact absurd hs (hstate _ rfl)
    · rename_i hs
      exact absurd hs (hstate _ rfl)
    · rename_i hs
      exact absurd hs hrel
    · rfl
  · unfold publishesSingle
    simp only [hpub, hexp, ne_eq, not_true, false_and, if_false]
    rfl

theorem loop_idle (l : List ClientMsg) (hidle : ∀ a ∈ pre, a.Idle)
    (hexp : ∀ a ∈ pre, a.store.messageExpiryTime = 0) :
    writeInflightLoop net (pre ++ l) m = writeInflightLoop net l m ∧
      publishesLoop net (pre ++ l) m = publishesLoop net l m := by
  induction pre with
  | nil => exact ⟨rfl, rfl⟩
  | cons a pre ih =>
    obtain ⟨hone, hnone⟩ := single_idle net m (hidle a List.mem_cons_self)
      (hexp a List.mem_cons_self)
    obtain ⟨hloop, hpub⟩ := ih (fun b hb => hidle b (List.mem_cons_of_mem a hb))
      fun b hb => hexp b (List.mem_cons_of_mem a hb)
    rw [List.cons_append]
    simp only [writeInflightLoop, publishesLoop, hone, hnone, ne_eq, not_true, if_false,
      List.nil_append]
    exact ⟨hloop, hpub⟩

/-- The writers do the same to a split list of messages that do not expire. -/
theorem writers_agree (hsplit : Split m.ctx.msgsOut.inflight)
    (hexp : ∀ a ∈ m.ctx.msgsOut.inflight, a.store.messageExpiryTime = 0) :
    messageWriteInflightOutLatest net m = messageWriteInflightOutAll net m ∧
      publishesLatest net m = publishesAll net m := by
  obtain ⟨pre, post, hin, hpre, hpost⟩ := hsplit
  obtain ⟨p, q, hpq, hlatest⟩ := latestFrom_split hpre hpost
  have hidle := loop_idle net m post (fun a ha => hpre a (hpq ▸ List.mem_append_right p ha))
    fun a ha => hexp a (hin ▸ List.mem_append_left _ (hpq ▸ List.mem_append_right p ha))
  have hall := loop_idle net m post hpre fun a ha => hexp a (hin ▸ List.mem_append_left _ ha)
  unfold messageWriteInflightOutLatest messageWriteInflightOutAll publishesLatest publishesAll
  by_cases hno : m.ctx.state ≠ .active ∨ m.ctx.sock = none
  · have hno' : m.ctx.state ≠ .active ∨ m.ctx.sock = none ∨ m.ctx.msgsOut.inflight = [] :=
      hno.imp_right .inl
    rw [if_pos hno, if_pos hno, if_pos hno', if_pos hno']
    exact ⟨rfl, rfl⟩
  · by_cases hempty : m.ctx.msgsOut.inflight = []
    · have hno' : m.ctx.state ≠ .active ∨ m.ctx.sock = none ∨ m.ctx.msgsOut.inflight = [] :=
        .inr (.inr hempty)
      rw [if_neg hno, if_neg hno, if_pos hno', if_pos hno', hempty]
      exact ⟨rfl, rfl⟩
    · have hno' : ¬ (m.ctx.state ≠ .active ∨ m.ctx.sock = none ∨ m.ctx.msgsOut.inflight = []) := by
        tauto
      rw [if_neg hno, if_neg hno, if_neg hno', if_neg hno', hin, hlatest, hidle.1, hidle.2,
        hall.1, hall.2]
      exact ⟨rfl, rfl⟩

end Agree

/-! ## Acts keep the list split -/

section Keep

variable {net : Net} {T : Discipline} {m m' : Machine} {l : List ClientMsg}

theorem split_latest (hs : Sound .mdOut m) (h : Split m.ctx.msgsOut.inflight) :
    Split (messageWriteInflightOutLatest net m).2.ctx.msgsOut.inflight := by
  unfold messageWriteInflightOutLatest
  split
  · exact h
  · obtain ⟨pre, post, hin, hpre, hpost⟩ := h
    obtain ⟨p, q, rfl, hlatest⟩ := latestFrom_split hpre hpost
    rw [hin, hlatest]
    obtain ⟨pre', done, rest, hres, hpre', hdone, -, -⟩ := @loop_spec net _ _ _ _ (fun _ h => h)
      (hin.trans (List.append_assoc p q post)) hs.nodup_inflight
      fun a ha => hpre a (List.mem_append_left q ha)
    rw [hres]
    exact (split_suffix (fun a ha => hpre a (List.mem_append_right p ha)) hpost
      ⟨done, hdone.symm⟩).append_idle hpre'

theorem split_all (hs : Sound .mdOut m) (h : Split m.ctx.msgsOut.inflight) :
    Split (messageWriteInflightOutAll net m).2.ctx.msgsOut.inflight := by
  unfold messageWriteInflightOutAll
  split
  · exact h
  · obtain ⟨pre, post, hin, hpre, hpost⟩ := h
    obtain ⟨pre', done, rest, hres, hpre', hdone, -, -⟩ := @loop_spec net [] m _ _
      (fun _ h => h) (List.nil_append _).symm hs.nodup_inflight (List.forall_mem_nil _)
    rw [hres]
    rw [hin] at hdone
    exact (split_suffix hpre hpost ⟨done, hdone.symm⟩).append_idle hpre'

theorem split_mark {item : ClientMsg} {f : ClientMsg → ClientMsg} {l : List ClientMsg}
    (hnd : (l.map (·.addr)).Nodup) (h : Split l) (hmem : item ∈ l)
    (hsent : MsgState.isPublish item.state = false) (hf : ∀ a, (f a).Idle) :
    Split (updateAt item.addr f l) := by
  obtain ⟨pre, post, rfl, hpre, hpost⟩ := h
  have hitem : item ∈ pre := by
    rcases List.mem_append.mp hmem with hmem | hmem
    · exact hmem
    · exact absurd (hsent.symm.trans (hpost item hmem)) (by simp)
  have hout : item.addr ∉ post.map (·.addr) := by
    rw [List.map_append, List.nodup_append] at hnd
    exact fun hp => hnd.2.2 _ (List.mem_map.mpr ⟨item, hitem, rfl⟩) _ hp rfl
  have happ : updateAt item.addr f (pre ++ post) = updateAt item.addr f pre ++ post := by
    have happ : updateAt item.addr f (pre ++ post) =
        updateAt item.addr f pre ++ updateAt item.addr f post := List.map_append
    rw [happ, updateAt_of_notMem hout]
  rw [happ]
  refine ⟨_, post, rfl, fun a ha => ?_, hpost⟩
  obtain ⟨c, hc, rfl⟩ := List.mem_map.mp ha
  split
  · exact hf c
  · exact hpre c hc

/-- An act keeps the list split if a PUBREC only answers messages that were sent. -/
theorem split_act
    (hT : ∀ a ∈ m.ctx.msgsOut.inflight, T.marks a → MsgState.isPublish a.state = false)
    (hs : Sound .mdOut m) (h : Act net T m l m') (hsplit : Split m.ctx.msgsOut.inflight) :
    Split m'.ctx.msgsOut.inflight := by
  cases h with
  | still h q hmd =>
    rw [hmd]
    exact hsplit
  | @place m' h msg qos hplace haddr hlt hdup hstate htime hmd =>
    rw [hmd, (insert_lists m.ctx.msgsOut msg qos).1]
    split
    · exact hsplit
    · rename_i hnot
      refine hsplit.append fun a ha => ?_
      rw [List.mem_singleton.mp ha]
      rcases hstate with hst | hst | hst
      · exact absurd (.inl hst) hnot
      · exact absurd (.inr hst) hnot
      · rw [hst]
        exact publishState_isPublish qos
  | moveUp h hf hpub k hmd =>
    rw [hmd]
    refine hsplit.append fun a ha => ?_
    obtain ⟨c, -, rfl⟩ := List.mem_map.mp ha
    exact hpub c
  | release h k d hover hmd =>
    rw [hmd]
    refine hsplit.append fun a ha => ?_
    obtain ⟨c, -, rfl⟩ := List.mem_map.mp ha
    exact publishState_isPublish c.qos
  | leave h hmem hmd =>
    rw [hmd, MsgData.remove_inflight_eq]
    exact hsplit.sublist List.eraseP_sublist
  | mark h hmem hmark t hmd =>
    rw [hmd]
    exact split_mark hs.nodup_inflight hsplit hmem (hT _ hmem hmark) fun _ => ⟨rfl, (nomatch ·)⟩
  | latest => exact split_latest hs hsplit
  | all => exact split_all hs hsplit

end Keep

/-! ## Messages that are passed by -/

/-- A message in flight waits for publish, or it was sent and waits for the client. -/
def ClientMsg.Settled (a : ClientMsg) : Prop :=
  MsgState.isPublish a.state = true ∨ a.dup = true ∧ (a.state = .waitForPuback ∨
    a.state = .waitForPubrec ∨ a.state = .waitForPubcomp ∨ a.state = .resendPubrel)

section Settled

variable {net : Net} {T : Discipline} {m m' : Machine} {l : List ClientMsg}

theorem ClientMsg.Settled.state {a : ClientMsg} (h : a.Settled) :
    a.state ≠ .invalid ∧ a.state ≠ .queued ∧ a.state ≠ .storage ∧ (a.Idle → a.dup = true) := by
  rcases h with h | ⟨hdup, h | h | h | h⟩
  · have hne : ∀ s, MsgState.isPublish s = false → a.state ≠ s := by
      rintro s hs rfl
      exact absurd (hs.symm.trans h) (by simp)
    exact ⟨hne _ rfl, hne _ rfl, hne _ rfl, fun hidle => absurd (hidle.1.symm.trans h) (by simp)⟩
  all_goals
    rw [h]
    exact ⟨(nomatch ·), (nomatch ·), (nomatch ·), fun _ => hdup⟩

/-- A message that waits for PUBCOMP, or for its PUBREL to be sent again, was sent. -/
theorem ClientMsg.Settled.dup {a : ClientMsg} (h : a.Settled)
    (hs : MsgState.isPublish a.state = false) : a.dup = true := by
  rcases h with h | h
  · exact absurd (hs.symm.trans h) (by simp)
  · exact h.1

theorem written_settled : Written net fun md => ∀ a ∈ md.inflight, a.Settled := by
  intro now msg md md' hnd hmem h hp
  have hremove : ∀ md : MsgData, (∀ a ∈ md.inflight, a.Settled) →
      ∀ a ∈ (md.remove msg).inflight, a.Settled := by
    intro md hp a ha
    rw [MsgData.remove_inflight_eq] at ha
    exact hp a (List.mem_of_mem_eraseP ha)
  -- a write to the message
  have hwrite : ∀ f : ClientMsg → ClientMsg, (f msg).Settled →
      ∀ a ∈ (md.write msg.addr f).inflight, a.Settled := by
    intro f hf a ha
    obtain ⟨b, hb, rfl⟩ := List.mem_map.mp ha
    split
    · rename_i he
      rw [addr_inj hnd hb hmem he]
      exact hf
    · exact hp b hb
  cases h with
  | idle => exact hp
  | sent t s hs =>
    refine hwrite _ (.inr ⟨rfl, ?_⟩)
    rcases hs with ⟨-, rfl⟩ | ⟨-, rfl⟩
    · exact .inl rfl
    · exact .inr (.inl rfl)
  | resent hs =>
    have hdup : msg.dup = true := (hp msg hmem).dup (by rw [hs]; rfl)
    exact hwrite _ (.inr ⟨hdup, .inr (.inr (.inl rfl))⟩)
  | done hs => exact hremove md hp
  | oversize hs h => exact hremove md hp
  | expired h =>
    refine hremove _ ?_
    split
    · rw [MsgData.incrementQuota_inflight]
      exact hp
    · exact hp

theorem settled_act (hT : ∀ a, T.marks a → a.dup = true) (hs : Sound .mdOut m)
    (ha : Act net T m l m') (h : ∀ a ∈ m.ctx.msgsOut.inflight, a.Settled) :
    ∀ a ∈ m'.ctx.msgsOut.inflight, a.Settled := by
  have happ : ∀ l : List ClientMsg, (∀ a ∈ l, MsgState.isPublish a.state = true) →
      ∀ a ∈ m.ctx.msgsOut.inflight ++ l, a.Settled := by
    intro l hl a ha
    exact (List.mem_append.mp ha).elim (h a) fun ha => .inl (hl a ha)
  cases ha with
  | still ha q hmd => exact hmd ▸ h
  | @place m' ha msg qos hplace haddr hlt hdup hstate htime hmd =>
    rw [hmd, (insert_lists m.ctx.msgsOut msg qos).1]
    split
    · exact h
    · rename_i hnot
      refine happ [msg] fun a ha => ?_
      rw [List.mem_singleton.mp ha]
      rcases hstate with hst | hst | hst
      · exact absurd (.inl hst) hnot
      · exact absurd (.inr hst) hnot
      · rw [hst]
        exact publishState_isPublish qos
  | moveUp ha hf hpub k hmd =>
    rw [hmd]
    refine happ _ fun a ha => ?_
    obtain ⟨b, -, rfl⟩ := List.mem_map.mp ha
    exact hpub b
  | release ha k d hover hmd =>
    rw [hmd]
    refine happ _ fun a ha => ?_
    obtain ⟨b, -, rfl⟩ := List.mem_map.mp ha
    exact publishState_isPublish b.qos
  | leave ha hitem hmd =>
    rw [hmd, MsgData.remove_inflight_eq]
    exact fun a ha => h a (List.mem_of_mem_eraseP ha)
  | @mark m' ha item hitem hmark t hmd =>
    rw [hmd]
    intro a ha
    obtain ⟨b, hb, rfl⟩ := List.mem_map.mp ha
    split
    · rename_i he
      rw [addr_inj hs.nodup_inflight hb hitem he]
      exact .inr ⟨hT item hmark, .inr (.inr (.inl rfl))⟩
    · exact h b hb
  | latest => exact written_settled.messageWriteInflightOutLatest hs h
  | all => exact written_settled.messageWriteInflightOutAll hs h

theorem settled_acts (hT : ∀ a, T.marks a → a.dup = true) (ha : Acts net T m l m') (hb : Based m)
    (h : ∀ a ∈ m.ctx.msgsOut.inflight, a.Settled) :
    ∀ a ∈ m'.ctx.msgsOut.inflight, a.Settled :=
  (ha.keep (I := fun _ m => Based m ∧ ∀ a ∈ m.ctx.msgsOut.inflight, a.Settled)
    (fun ha hi => ⟨based_act hi.1 ha, settled_act hT hi.1.sound ha hi.2⟩) [] ⟨hb, h⟩).2

end Settled

/-! ## What has been published -/

/-- The messages of `sent` were published: they were allocated, none waits in a list, and
those still in flight do not wait for publish. -/
structure Traced (sent : List ClientMsg) (nextMsg : Nat) (md : MsgData) : Prop where
  past : ∀ a ∈ sent, a.addr < nextMsg
  queued : ∀ a ∈ md.queued, a.addr ∉ sent.map (·.addr)
  storage : ∀ a ∈ md.storage, a.addr ∉ sent.map (·.addr)
  marked : ∀ a ∈ md.inflight, a.addr ∈ sent.map (·.addr) → MsgState.isPublish a.state = false

section Traced

variable {net : Net} {T : Discipline} {m m' : Machine} {l sent : List ClientMsg}

theorem latestFrom_suffix (l : List ClientMsg) : latestFrom l <:+ l := by
  cases l with
  | nil => exact List.suffix_refl _
  | cons head tail =>
    rw [latestFrom]
    split
    · exact List.suffix_refl _
    · refine List.IsSuffix.trans ?_ (List.suffix_cons head tail)
      have hpre := List.takeWhile_prefix (l := tail.reverse) (MsgState.isPublish ·.state)
      simpa using List.reverse_suffix.mpr hpre

theorem publishesLoop_sublist (l : List ClientMsg) (m : Machine) :
    (publishesLoop net l m).Sublist l := by
  induction l generalizing m with
  | nil => exact List.Sublist.refl _
  | cons msg rest ih =>
    unfold publishesLoop
    simp only
    refine (publishesSingle_sublist net msg m).1.append ?_
    split
    · exact List.nil_sublist _
    · exact ih _

theorem Sound.inflight_ne_queued (hs : Sound .mdOut m) {a b : ClientMsg}
    (ha : a ∈ m.ctx.msgsOut.inflight) (hb : b ∈ m.ctx.msgsOut.queued) : a.addr ≠ b.addr := by
  have hnd := hs.nodup
  rw [show m.ctx.msgs .mdOut = m.ctx.msgsOut from rfl, MsgData.all, List.map_append,
    List.map_append] at hnd
  have hleft := (List.nodup_append.mp hnd).1
  exact (List.nodup_append.mp hleft).2.2 _ (List.mem_map.mpr ⟨a, ha, rfl⟩) _
    (List.mem_map.mpr ⟨b, hb, rfl⟩)

theorem Sound.inflight_ne_storage (hs : Sound .mdOut m) {a b : ClientMsg}
    (ha : a ∈ m.ctx.msgsOut.inflight) (hb : b ∈ m.ctx.msgsOut.storage) : a.addr ≠ b.addr := by
  have hnd := hs.nodup
  rw [show m.ctx.msgs .mdOut = m.ctx.msgsOut from rfl, MsgData.all, List.map_append] at hnd
  exact (List.nodup_append.mp hnd).2.2 _
    (List.mem_map.mpr ⟨a, List.mem_append_left _ ha, rfl⟩) _ (List.mem_map.mpr ⟨b, hb, rfl⟩)

theorem traced_loop (hs : Sound .mdOut m) (h : Traced sent m.db.nextMsg m.ctx.msgsOut)
    (hl : l <:+ m.ctx.msgsOut.inflight) :
    Traced (sent ++ publishesLoop net l m) (writeInflightLoop net l m).2.db.nextMsg
      (writeInflightLoop net l m).2.ctx.msgsOut := by
  obtain ⟨pre, hin⟩ := hl
  have hnd := hs.nodup_inflight
  rw [← hin, List.map_append, List.nodup_append] at hnd
  obtain ⟨-, hndl, hapart⟩ := hnd
  have hmem : ∀ a ∈ l, a ∈ m.ctx.msgsOut.inflight := fun a ha => hin ▸ List.mem_append_right _ ha
  have hwait := (@written_waiting net m.ctx.msgsOut.queued m.ctx.msgsOut.storage).writeInflightLoop
    hs hndl hmem ⟨rfl, rfl⟩
  have hpub : ∀ x ∈ (publishesLoop net l m).map (·.addr), ∃ b ∈ l, b.addr = x := by
    intro x hx
    obtain ⟨b, hb, he⟩ := List.mem_map.mp hx
    exact ⟨b, (publishesLoop_sublist l m).subset hb, he⟩
  -- a message that waits elsewhere is not published
  have hkeep : ∀ a : ClientMsg, a.addr ∉ sent.map (·.addr) →
      (∀ b ∈ m.ctx.msgsOut.inflight, b.addr ≠ a.addr) →
      a.addr ∉ (sent ++ publishesLoop net l m).map (·.addr) := by
    intro a hold hne hmem'
    rw [List.map_append] at hmem'
    rcases List.mem_append.mp hmem' with hmem' | hmem'
    · exact hold hmem'
    · obtain ⟨b, hb, he⟩ := hpub _ hmem'
      exact hne b (hmem b hb) he
  obtain ⟨pre', done, rest, hres, hpre', hdone, hsub, -⟩ := @loop_spec net pre m l
    (fun a => a.addr ∈ (sent ++ publishesLoop net l m).map (·.addr) →
      MsgState.isPublish a.state = false) (fun a h _ => h.1) hin.symm hs.nodup_inflight (by
    intro a ha hmem'
    rw [List.map_append] at hmem'
    rcases List.mem_append.mp hmem' with hmem' | hmem'
    · exact h.marked a (hin ▸ List.mem_append_left _ ha) hmem'
    · obtain ⟨b, hb, he⟩ := hpub _ hmem'
      exact absurd he.symm (hapart _ (List.mem_map.mpr ⟨a, ha, rfl⟩) _
        (List.mem_map.mpr ⟨b, hb, rfl⟩)))
  refine ⟨fun a ha => ?_, fun a ha => ?_, fun a ha => ?_, fun a ha hmem' => ?_⟩
  · refine lt_of_lt_of_le ?_ (around_writeInflightLoop net m l).nextMsg
    rcases List.mem_append.mp ha with ha | ha
    · exact h.past a ha
    · have hain := hmem a ((publishesLoop_sublist l m).subset ha)
      exact hs.fresh a (List.mem_append_left _ (List.mem_append_left _ hain))
  · rw [hwait.1] at ha
    exact hkeep a (h.queued a ha) fun b hb => hs.inflight_ne_queued hb ha
  · rw [hwait.2] at ha
    exact hkeep a (h.storage a ha) fun b hb => hs.inflight_ne_storage hb ha
  · rw [hres] at ha
    rcases List.mem_append.mp ha with ha | ha
    · exact hpre' a ha hmem'
    · rw [List.map_append] at hmem'
      rcases List.mem_append.mp hmem' with hmem' | hmem'
      · exact h.marked a (hmem a (hdone ▸ List.mem_append_right _ ha)) hmem'
      · obtain ⟨b, hb, he⟩ := List.mem_map.mp hmem'
        rw [hdone, List.map_append, List.nodup_append] at hndl
        exact absurd he (hndl.2.2 _ (List.mem_map.mpr ⟨b, hsub.subset hb, rfl⟩) _
          (List.mem_map.mpr ⟨a, ha, rfl⟩))

theorem traced_act (hs : Sound .mdOut m) (ha : Act net T m l m')
    (h : Traced sent m.db.nextMsg m.ctx.msgsOut) :
    Traced (sent ++ l) m'.db.nextMsg m'.ctx.msgsOut := by
  have hnext := ha.around.nextMsg
  have hpast : ∀ a ∈ sent ++ [], a.addr < m'.db.nextMsg := by
    rw [List.append_nil]
    exact fun a ha => (h.past a ha).trans_le hnext
  cases ha with
  | still ha q hmd =>
    rw [List.append_nil] at hpast ⊢
    exact ⟨hpast, hmd ▸ h.queued, hmd ▸ h.storage, hmd ▸ h.marked⟩
  | @place m' ha msg qos hplace haddr hlt hdup hstate htime hmd =>
    have hnew : msg.addr ∉ sent.map (·.addr) := by
      intro hmem
      obtain ⟨b, hb, he⟩ := List.mem_map.mp hmem
      exact absurd (h.past b hb) (by rw [he, haddr]; exact lt_irrefl _)
    obtain ⟨hin, hqueued, hstorage⟩ := insert_lists m.ctx.msgsOut msg qos
    rw [← hmd] at hin hqueued hstorage
    rw [List.append_nil] at hpast ⊢
    refine ⟨hpast, fun a ha => ?_, fun a ha => ?_, fun a ha => ?_⟩
    · rw [hqueued] at ha
      split at ha
      · exact (List.mem_append.mp ha).elim (h.queued a) fun ha => List.mem_singleton.mp ha ▸ hnew
      · exact h.queued a ha
    · rw [hstorage] at ha
      split at ha
      · exact (List.mem_append.mp ha).elim (h.storage a) fun ha => List.mem_singleton.mp ha ▸ hnew
      · exact h.storage a ha
    · rw [hin] at ha
      split at ha
      · exact h.marked a ha
      · exact (List.mem_append.mp ha).elim (h.marked a) fun ha hmem =>
          absurd (List.mem_singleton.mp ha ▸ hmem) hnew
  | @moveUp m' ha f hf hpub k hmd =>
    rw [List.append_nil] at hpast ⊢
    rw [hmd]
    refine ⟨hpast, fun a ha => h.queued a (List.mem_of_mem_drop ha), h.storage, fun a ha hmem => ?_⟩
    rcases List.mem_append.mp ha with ha | ha
    · exact h.marked a ha hmem
    · obtain ⟨b, hb, rfl⟩ := List.mem_map.mp ha
      rw [hf.addr] at hmem
      exact absurd hmem (h.queued b (List.mem_of_mem_take hb))
  | release ha k d hover hmd =>
    rw [List.append_nil] at hpast ⊢
    rw [hmd]
    refine ⟨hpast, fun a ha => ?_, fun a ha => h.storage a (List.mem_of_mem_drop ha),
      fun a ha hmem => ?_⟩
    · exact (List.mem_append.mp ha).elim (h.queued a) fun ha =>
        h.storage a (List.mem_of_mem_drop (List.mem_of_mem_take ha))
    · rcases List.mem_append.mp ha with ha | ha
      · exact h.marked a ha hmem
      · obtain ⟨b, hb, rfl⟩ := List.mem_map.mp ha
        exact absurd hmem (h.storage b (List.mem_of_mem_take hb))
  | @leave m' ha item hitem hmd =>
    obtain ⟨-, hqueued, -⟩ := m.ctx.msgsOut.remove_window item
    rw [List.append_nil] at hpast ⊢
    rw [hmd]
    refine ⟨hpast, hqueued ▸ h.queued, (MsgData.remove_storage m.ctx.msgsOut item) ▸ h.storage,
      fun a ha => ?_⟩
    rw [MsgData.remove_inflight_eq] at ha
    exact h.marked a (List.mem_of_mem_eraseP ha)
  | mark ha hitem hmark t hmd =>
    rw [List.append_nil] at hpast ⊢
    rw [hmd]
    refine ⟨hpast, h.queued, h.storage, fun a ha hmem => ?_⟩
    obtain ⟨b, hb, rfl⟩ := List.mem_map.mp ha
    split
    · rfl
    · rename_i hne
      rw [if_neg hne] at hmem
      exact h.marked b hb hmem
  | latest =>
    unfold publishesLatest messageWriteInflightOutLatest
    split
    · rwa [List.append_nil]
    · exact traced_loop hs h (latestFrom_suffix _)
  | all =>
    unfold publishesAll messageWriteInflightOutAll
    split
    · rwa [List.append_nil]
    · exact traced_loop hs h (List.suffix_refl _)

end Traced

end AdaptiveMqtt.Db
