import AdaptiveMqtt.Broker.Unsent
import AdaptiveMqtt.Db.Order

/-!
# Stored messages keep their order

The messages that `db__message_insert` puts into `msgs_out.storage` over the life of a
client, and the order in which a connection sends them.
-/

namespace AdaptiveMqtt.Broker

open Db

def Moment.stored (s : Moment) : List Nat :=
  match s.event with
  | .traffic t => t.stored s.before
  | _ => []

/-- The addresses of the messages that were put into storage, in that order. -/
def storedIn (past : List Moment) : List Nat := past.flatMap Moment.stored

@[simp] theorem storedIn_append (past : List Moment) (s : Moment) :
    storedIn (past ++ [s]) = storedIn past ++ s.stored := by
  simp [storedIn]

/-- No stored message goes to flight while another that was stored waits in the queue, and a
PUBREC is of a message that was sent in this connection. -/
def unovertaken (stored : List Nat) (sent : List ClientMsg) : Discipline :=
  { places := fun _ => True
    marks := Answerable sent
    overtakes := fun queued => ∀ a ∈ queued, a.addr ∉ stored }

/-- A flush of storage does not overtake the queue, acknowledgements are of messages that were
sent in this connection, and `connect__on_authorised` returns success. -/
def Unovertaken (past : List Moment) (s : Moment) : Prop :=
  s.event.Sane s.before ∧ match s.event with
    | .traffic t => t.Fair (unovertaken (storedIn past) (sentIn past)) s.before
    | .takeOver _ => True
    | .checkAcl => True
    | .connectDone connectAck => (connectDone s.env connectAck s.before).1 = Rc.success

/-- The set of stored messages is in order, and so are those of its messages the client has
or was sent. -/
structure Filed (past : List Moment) (m : Machine) : Prop where
  sorted : Sorted (sentIn past) m
  ranked : Ranked (storedIn past) (sentIn past) m.ctx.msgsOut
  ascending : (storedIn past).Pairwise (· < ·)
  past : ∀ x ∈ storedIn past, x < m.db.nextMsg

section Filed

variable {env : Env} {m m' : Machine} {past : List Moment} {t : Traffic}

/-- An event that stores nothing. -/
theorem Filed.silent {s : Moment} (h : Filed past m) (hstored : s.stored = [])
    (hsorted : Sorted (sentIn (past ++ [s])) m')
    (hranked : Ranked (storedIn past) (sentIn (past ++ [s])) m'.ctx.msgsOut)
    (hnext : m.db.nextMsg ≤ m'.db.nextMsg) : Filed (past ++ [s]) m' := by
  have hsame : storedIn (past ++ [s]) = storedIn past := by
    rw [storedIn_append, hstored, List.append_nil]
  refine ⟨hsorted, hsame ▸ hranked, hsame ▸ h.ascending, fun x hx => ?_⟩
  exact (h.past x (hsame ▸ hx)).trans_le hnext

/-- The discipline of an event, with the message it stores. -/
def filing (stored : List Nat) (sent : List ClientMsg) : Discipline :=
  { unovertaken stored sent with places := fun a => a.addr ∈ stored ↔ a.state = .storage }

theorem fair_filing (hpast : ∀ x ∈ storedIn past, x < m.db.nextMsg)
    (hfair : t.Fair (unovertaken (storedIn past) (sentIn past)) m) :
    t.Fair (filing (storedIn past ++ t.stored m) (sentIn past)) m := by
  cases t with
  | insert mid qos retain stored properties update =>
    intro id state rc m₁ msg hid hrefused hstate hnew
    exact mem_stored_iff hpast hid hrefused hstate hnew
  | writeStorageOut =>
    rw [show Traffic.stored m .writeStorageOut = [] from rfl, List.append_nil]
    exact hfair
  | ack type p =>
    rw [show Traffic.stored m (.ack type p) = [] from rfl, List.append_nil]
    exact hfair
  | pubrec p => exact hfair
  | writeQueuedOut => trivial
  | writeInflightOutLatest => trivial
  | writeInflightOutAll => trivial
  | between db ctx => trivial

theorem filed_traffic (hbetween : ∀ db ctx, t ≠ .between db ctx)
    (hfair : t.Fair (unovertaken (storedIn past) (sentIn past)) m) (h : Filed past m) :
    Filed (past ++ [⟨env, m, .traffic t⟩]) (t.exec env.net m) := by
  let stored := storedIn past ++ t.stored m
  have hranked : Ranked stored (sentIn past) m.ctx.msgsOut :=
    h.ranked.extend h.sorted.based.sound.fresh h.sorted.traced.past
      fun x hx => (eq_of_mem_stored hx).ge
  have hacts := acts_exec (T := filing stored (sentIn past)) (List.forall_mem_nil _)
    h.sorted.based env.net (fair_filing h.past hfair) hbetween
  have hT : ∀ a, (filing stored (sentIn past)).marks a → Answerable (sentIn past) a :=
    fun _ h => h
  obtain ⟨hsorted, hranked'⟩ := Sorted.keep
    (I := fun tr m => Ranked stored tr m.ctx.msgsOut) hT hacts
    (fun hsub hs ha hr => ranked_act (fun _ h => h) (hs.marks hT hsub) (fun _ h => h)
      hs.based.sound hs.split hs.traced.past ha hr) h.sorted hranked
  have hnext := hacts.around.nextMsg
  have hsame : storedIn (past ++ [⟨env, m, .traffic t⟩]) = stored := storedIn_append _ _
  have hsent : sentIn (past ++ [⟨env, m, .traffic t⟩]) = sentIn past ++ t.publishes env.net m :=
    sentIn_append _ _
  refine ⟨hsent ▸ hsorted, ?_, ?_, ?_⟩
  · rw [hsame, hsent]
    exact hranked'
  · rw [hsame]
    refine List.pairwise_append.mpr ⟨h.ascending, ?_, fun x hx y hy => ?_⟩
    · rcases stored_cases t m with he | he
      · rw [he]
        exact List.Pairwise.nil
      · rw [he]
        exact List.pairwise_singleton _ _
    · rw [eq_of_mem_stored hy]
      exact h.past x hx
  · rw [hsame]
    intro x hx
    rcases List.mem_append.mp hx with hx | hx
    · exact (h.past x hx).trans_le hnext
    · exact stored_lt x hx

theorem ranked_connectDone {stored : List Nat} {sent : List ClientMsg} {connectAck : UInt8}
    (hb : Based m) (h : Ranked stored sent m.ctx.msgsOut) :
    Ranked stored (sent ++ publishesConnect env connectAck m)
      (connectDone env connectAck m).2.ctx.msgsOut := by
  rcases connectDone_cases env connectAck m with ⟨-, hpub, hnew⟩ | ⟨m₁, hnew, -, hdone, hpub⟩
  · rw [hpub, List.append_nil, hnew.msgsOut]
    exact h
  · have hb₁ := hnew.based hb
    have hb₂ : Based (messageWriteQueuedOut m₁).2 :=
      based_acts hb₁ (acts_messageWriteQueuedOut hb₁ env.net .free).1
    rw [hpub, hdone]
    refine ranked_messageWriteInflightOutAll hb₂.sound (ranked_messageWriteQueuedOut hb₁ ?_)
    rw [hnew.msgsOut]
    exact h

theorem filed_life {e : Life} (hok : Unovertaken past ⟨env, m, e⟩) (h : Filed past m) :
    Filed (past ++ [⟨env, m, e⟩]) (e.exec env m) := by
  obtain ⟨hsane, hok⟩ := hok
  have hsent := sentIn_append past ⟨env, m, e⟩
  cases e with
  | traffic t =>
    by_cases hbetween : ∃ db ctx, t = .between db ctx
    · obtain ⟨db, ctx, rfl⟩ := hbetween
      rw [show Life.published env m (sentIn past) (.traffic (.between db ctx)) = sentIn past ++ []
        from rfl, List.append_nil] at hsent
      refine h.silent rfl ?_ ?_ (Nat.le_add_right _ _)
      · rw [hsent]
        exact @sorted_between env.net _ _ _ _ hsane h.sorted
      · rw [hsent]
        exact h.ranked
    · exact filed_traffic (fun db ctx he => hbetween ⟨db, ctx, he⟩) hok h
  | takeOver fresh =>
    refine h.silent rfl ?_ ?_ (around_handOver m.ctx ⟨m.db, fresh⟩).nextMsg
    · rw [hsent]
      exact sorted_takeOver hsane.1 hsane.2 h.sorted
    · rw [hsent]
      exact ranked_handOver h.sorted.based.sound.nodup hsane.2 h.ranked
  | checkAcl =>
    obtain ⟨hin, hqueued, hstorage, ha⟩ := connectionCheckAcl_spec env m
    have hstorage' : (connectionCheckAcl env m).ctx.msgsOut.storage.Sublist
        m.ctx.msgsOut.storage := hstorage ▸ List.Sublist.refl _
    refine h.silent rfl ?_ ?_ ha.nextMsg
    · rw [hsent]
      exact sorted_checkAcl h.sorted
    · rw [hsent]
      refine h.ranked.sublist (List.Sublist.map _ ?_) (List.Sublist.map _ ?_)
      · exact (hin.append hqueued).append hstorage'
      · exact (List.Sublist.refl (sentIn past)).append
          (((hin.filter _).append hqueued).append hstorage')
  | connectDone connectAck =>
    obtain ⟨m₁, hnew, hacts⟩ := @acts_connectDone env connectAck m h.sorted.based .free
    refine h.silent rfl ?_ ?_ (hnew.nextMsg.trans hacts.around.nextMsg)
    · rw [hsent]
      exact sorted_connectDone hsane hok h.sorted
    · rw [hsent]
      exact ranked_connectDone h.sorted.based h.ranked

end Filed

theorem filed_start {m₀ : Machine} (hclear : Clear m₀)
    (hclock : ∀ i j, i ≤ j → (m₀.db.clock i).sec ≤ (m₀.db.clock j).sec) : Filed [] m₀ := by
  have hnone : ∀ l : List Nat, l.filter (· ∈ storedIn []) = [] := fun l =>
    List.filter_eq_nil_iff.mpr fun x _ => by simp [storedIn]
  refine ⟨sorted_start hclear hclock, ⟨?_, ?_⟩, List.Pairwise.nil, List.forall_mem_nil _⟩
  · rw [hnone]
    exact List.Pairwise.nil
  · rw [hnone]
    exact List.Pairwise.nil

/-- **Stored messages keep their order**: those that a connection has sent are, in the order
in which it sent them, some of those that were put into storage, in the order of that. -/
theorem stored_sent_in_order {m₀ m : Machine} {past : List Moment} (hclear : Clear m₀)
    (hclock : ∀ i j, i ≤ j → (m₀.db.clock i).sec ≤ (m₀.db.clock j).sec)
    (h : Lives Unovertaken m₀ past m) :
    (storedIn past).Nodup ∧
      (((sentIn past).map (·.addr)).filter (· ∈ storedIn past)).Sublist (storedIn past) := by
  have hfiled : Filed past m := h.keep (filed_start hclear hclock)
    fun past s hok hf => filed_life hok hf
  have hnodup : ∀ l : List Nat, l.Pairwise (· < ·) → l.Nodup := fun l hl =>
    hl.imp fun hlt => hlt.ne
  have hsent : (((sentIn past).map (·.addr)).filter (· ∈ storedIn past)).Pairwise (· < ·) := by
    refine hfiled.ranked.sent.sublist (List.Sublist.filter _ (List.Sublist.map _ ?_))
    exact List.sublist_append_left _ _
  refine ⟨hnodup _ hfiled.ascending, ?_⟩
  refine List.sublist_of_subperm_of_sortedLE (List.subperm_of_subset (hnodup _ hsent) ?_)
    (hsent.imp fun hlt => hlt.le).sortedLE (hfiled.ascending.imp fun hlt => hlt.le).sortedLE
  intro x hx
  simpa using List.of_mem_filter hx

/-- A client in slow mode with a window of `n`. A stored message times out after two seconds,
and every reading of the clock is a second later. -/
def slowClient (n : Nat) : Machine :=
  { db := { Machine.idle.db with
      clock := fun i => ⟨i + 1, 0, 1⟩
      config := { Config.init with thresholdS := 1, msgStoreTimeout := 2 } }
    ctx := { Machine.idle.ctx with
      msgsOut := MsgData.empty n, mode := .slowMode, slowModeTime := 1 } }

theorem stored_sent_in_order_two :
    let l := [.insertByte 1 .q1, .insertByte 2 .q1, .traffic .writeStorageOut,
      .traffic .writeStorageOut, .traffic .writeInflightOutLatest]
    let past := Life.moments .letting (slowClient 4) l
    Clear (slowClient 4) ∧ (sentIn past).map (·.mid) = [1, 2] ∧ storedIn past = [0, 1] ∧
      (storedIn past).Nodup ∧
      (((sentIn past).map (·.addr)).filter (· ∈ storedIn past)).Sublist (storedIn past) := by
  intro l past
  have h₀ : Clear (slowClient 4) := ⟨rfl, rfl, rfl⟩
  have hclock : ∀ i j, i ≤ j →
      ((slowClient 4).db.clock i).sec ≤ ((slowClient 4).db.clock j).sec := by
    intro i j hij
    exact Int.add_le_add_right (Int.ofNat_le.mpr hij) 1
  have hinsert : ∀ past m s qos, Unovertaken past ⟨.letting, m, .insertByte s qos⟩ :=
    fun _ _ _ _ => ⟨trivial, fun _ _ _ _ _ _ _ _ _ => trivial⟩
  have hrun := lives_run (Lives.start : Lives Unovertaken (slowClient 4) _ _)
    (show Life.AllOk Unovertaken .letting _ _ l from
      ⟨hinsert _ _ 1 .q1, hinsert _ _ 2 .q1, ⟨trivial, fun _ _ => List.forall_mem_nil _⟩,
        ⟨trivial, fun _ _ => List.forall_mem_nil _⟩, ⟨trivial, trivial⟩, trivial⟩)
  exact ⟨h₀, rfl, rfl, stored_sent_in_order h₀ hclock hrun⟩

/-- **The flush of the storage is exact.** The stored messages are in the order of their
stamps. Those that are due are a beginning of the list; they leave it, some to flight with
the state of their QoS and the others to the queue, and all others stay. -/
theorem storage_flush_exact {m₀ m : Machine} {past : List Moment} (hsound : Sound .mdOut m₀)
    (hempty : m₀.ctx.msgsOut.storage = [])
    (hclock : ∀ i j, i ≤ j → (m₀.db.clock i).sec ≤ (m₀.db.clock j).sec)
    (h : Lives (fun _ s => s.event.Sane s.before) m₀ past m) :
    m.ctx.msgsOut.storage.Pairwise (fun a b => a.storageTime ≤ b.storageTime) ∧
      (m.ctx.state = .active →
        let due := fun a : ClientMsg =>
          decide (a.Due m.db.read.1.sec m.db.config.msgStoreTimeout m.ctx.mode)
        let md := m.ctx.msgsOut
        let md' := (messageWriteStorageOut m).2.ctx.msgsOut
        md.storage = md.storage.filter due ++ md'.storage ∧
          md'.storage = md.storage.filter (fun a => !due a) ∧
          ∃ flying waiting, md.storage.filter due = flying ++ waiting ∧
            md'.inflight = md.inflight ++ flying.map ClientMsg.toPublish ∧
            md'.queued = md.queued ++ waiting ∧
            ∀ a ∈ flying.map ClientMsg.toPublish, a.state = publishState a.qos) := by
  have hstart : Based m₀ :=
    ⟨hsound, hclock, hempty ▸ List.Pairwise.nil, hempty ▸ List.forall_mem_nil _⟩
  have hb : Based m :=
    h.keep (I := fun _ m => Based m) hstart fun _ s hsane hb => based_life hsane hb
  refine ⟨hb.stamped.sorted, fun hactive => ?_⟩
  intro due md md'
  obtain ⟨k, d, hkd, -, -, hgone, hleft⟩ := writeStorageLoop_eq md.storage md rfl hb.nodup_storage
    (hb.stamped.due m.db.read.1.sec m.db.config.msgStoreTimeout m.ctx.mode)
  have hmd' : md' = md.release k d := by
    have hrun : messageWriteStorageOut m = (Rc.success, { m with db := m.db.read.2 }.onMsgs .mdOut
        fun md => writeStorageLoop m.db.read.1.sec m.db.config.msgStoreTimeout m.ctx.mode
          md.storage md) := if_neg (not_not.mpr hactive)
    change (messageWriteStorageOut m).2.ctx.msgsOut = _
    rw [hrun, ← hkd]
    rfl
  obtain ⟨hdue, hrest⟩ := Lib.Agenda.filter_of_take (p := due) (fun a ha => decide_eq_true (hgone a ha))
    fun a ha hd => hleft a ha (of_decide_eq_true hd)
  rw [hmd', hdue, hrest]
  refine ⟨(List.take_append_drop _ _).symm, rfl, md.storage.take k, (md.storage.drop k).take d,
    List.take_add, rfl, rfl, fun a ha => ?_⟩
  obtain ⟨a', -, rfl⟩ := List.mem_map.mp ha
  rfl

/-- The second of two stored messages is due after the first has gone. -/
theorem storage_flush_exact_two :
    let l := [.insertByte 1 .q1, .insertByte 2 .q1, .traffic .writeStorageOut]
    let m := Life.run .letting (slowClient 4) l
    let md' := (messageWriteStorageOut m).2.ctx.msgsOut
    m.ctx.state = .active ∧ m.ctx.msgsOut.storage.map (·.mid) = [2] ∧
      md'.inflight.map (fun a => (a.mid, a.state)) = [(1, .publishQos1), (2, .publishQos1)] ∧
      md'.storage = m.ctx.msgsOut.storage.filter fun a =>
        !decide (a.Due m.db.read.1.sec m.db.config.msgStoreTimeout m.ctx.mode) := by
  intro l m md'
  have hsound : Sound .mdOut (slowClient 4) := ⟨List.nodup_nil, List.forall_mem_nil _⟩
  have hclock : ∀ i j, i ≤ j →
      ((slowClient 4).db.clock i).sec ≤ ((slowClient 4).db.clock j).sec := by
    intro i j hij
    exact Int.add_le_add_right (Int.ofNat_le.mpr hij) 1
  have hrun := lives_run
    (Lives.start : Lives (fun _ s => s.event.Sane s.before) (slowClient 4) _ _)
    (show Life.AllOk _ .letting _ _ l from ⟨trivial, trivial, trivial, trivial⟩)
  have hflush := storage_flush_exact hsound rfl hclock hrun
  exact ⟨rfl, rfl, rfl, (hflush.2 rfl).2.1⟩

/-- **A stored message is overtaken.** A `latency` message fills the window. The first stored
message times out and waits in the queue. The PUBACK gives the place in the window to the
second one, which has timed out by then. -/
theorem stored_sent_out_of_order :
    Clear (slowClient 1) ∧ ¬ ∀ past m, Lives (fun _ s => s.event.Sane s.before) (slowClient 1) past m →
      (((sentIn past).map (·.addr)).filter (· ∈ storedIn past)).Sublist (storedIn past) := by
  refine ⟨⟨rfl, rfl, rfl⟩, fun hall => ?_⟩
  let l : List Life := [
    .traffic (.insert 9 .q1 false { MsgStore.byte 4 with topic := ascii "latency" } [] true),
    .insertByte 1 .q1, .insertByte 2 .q1, .traffic (.ack .puback (.puback 9))]
  have hrun := lives_run
    (Lives.start : Lives (fun _ s => s.event.Sane s.before) (slowClient 1) _ _)
    (show Life.AllOk _ .letting _ _ l from ⟨trivial, trivial, trivial, trivial, trivial⟩)
  have hsent : (sentIn (Life.moments .letting (slowClient 1) l)).map (·.addr) = [0, 2, 1] := rfl
  have hstored : storedIn (Life.moments .letting (slowClient 1) l) = [1, 2] := rfl
  have hsub := hall _ _ hrun
  rw [List.nil_append, hsent, hstored] at hsub
  exact absurd hsub (by decide)

end AdaptiveMqtt.Broker
