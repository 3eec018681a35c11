import AdaptiveMqtt.Db.Steps

/-!
# No outgoing message is lost

The journal of a client is a ledger: what was placed is what the lists hold and what
was removed for cause. `Conserved` says so, with the four totals of `MsgData`. It is
kept by every small step of `Micro`, so by every sequence of calls of one connection,
whatever the clock, the mode and the network do in between.
-/

namespace AdaptiveMqtt.Db

/-! ## Totals -/

/-- The four totals of `struct mosquitto_msg_data`. -/
@[ext] structure Totals where
  msgCount : Int
  msgBytes : Int
  msgCount12 : Int
  msgBytes12 : Int

/-- What the totals of a list of messages should be. -/
def totalsOf (l : List ClientMsg) : Totals :=
  { msgCount := l.length
    msgBytes := (l.map (·.store.payloadlen)).sum
    msgCount12 := (l.filter (·.qos ≠ .q0)).length
    msgBytes12 := ((l.filter (·.qos ≠ .q0)).map (·.store.payloadlen)).sum }

def MsgData.totals (md : MsgData) : Totals :=
  ⟨md.msgCount, md.msgBytes, md.msgCount12, md.msgBytes12⟩

/-- The totals are those of the three lists. -/
def MsgData.Tallied (md : MsgData) : Prop := md.totals = totalsOf md.all

section Totals

variable {md md' : MsgData} {l l' : List ClientMsg}

theorem totalsOf_perm (h : l.Perm l') : totalsOf l = totalsOf l' := by
  unfold totalsOf
  rw [h.length_eq, (h.map _).sum_eq, (h.filter _).length_eq, ((h.filter _).map _).sum_eq]

theorem totalsOf_map_key (l : List ClientMsg) : totalsOf (l.map ClientMsg.key) = totalsOf l := by
  unfold totalsOf
  rw [List.filter_map, List.map_map, List.map_map, List.length_map, List.length_map]
  rfl

theorem totalsOf_cons (msg : ClientMsg) (l : List ClientMsg) :
    totalsOf (msg :: l) =
      { msgCount := (totalsOf l).msgCount + 1
        msgBytes := (totalsOf l).msgBytes + msg.store.payloadlen
        msgCount12 := (totalsOf l).msgCount12 + if msg.qos ≠ .q0 then 1 else 0
        msgBytes12 := (totalsOf l).msgBytes12 + if msg.qos ≠ .q0 then msg.store.payloadlen else 0 } := by
  by_cases hq : msg.qos = .q0
  · ext <;> simp [totalsOf, hq, add_comm]
  · ext <;> simp [totalsOf, hq, add_comm]

theorem totalsOf_keys (h : (l.map ClientMsg.key).Perm (l'.map ClientMsg.key)) :
    totalsOf l = totalsOf l' := by
  rw [← totalsOf_map_key l, totalsOf_perm h, totalsOf_map_key]

theorem Shuffle.totals (h : Shuffle md md') : md'.totals = md.totals := by
  unfold MsgData.totals
  rw [h.msgCount, h.msgBytes, h.msgCount12, h.msgBytes12]

theorem Shuffle.tallied (h : Shuffle md md') (ht : md.Tallied) : md'.Tallied := by
  show md'.totals = totalsOf md'.all
  rw [h.totals, totalsOf_keys h.perm]
  exact ht

theorem MsgData.place_totals (md : MsgData) (msg : ClientMsg) :
    (md.place msg).totals = md.totals := by
  unfold MsgData.place
  split <;> rfl

theorem MsgData.tallied_place (msg : ClientMsg) (ht : md.Tallied) :
    ((md.place msg).count msg msg.qos).Tallied := by
  show _ = totalsOf _
  rw [totalsOf_perm (MsgData.place_count_all md msg msg.qos), totalsOf_cons, ← ht,
    ← MsgData.place_totals md msg]
  unfold MsgData.count MsgData.totals
  by_cases hq : msg.qos = .q0
  · simp [hq]
  · simp [hq]

theorem MsgData.tallied_remove {item : ClientMsg} (hnd : (md.all.map (·.addr)).Nodup)
    (hmem : item.key ∈ md.inflight.map ClientMsg.key) (ht : md.Tallied) :
    (md.remove item).Tallied := by
  have hkeys := totalsOf_perm (MsgData.remove_perm hnd hmem)
  rw [totalsOf_map_key, totalsOf_cons, totalsOf_map_key, ← ht] at hkeys
  simp only [MsgData.totals, ClientMsg.key_store, ClientMsg.key_qos, Totals.mk.injEq] at hkeys
  obtain ⟨hc, hb, hc12, hb12⟩ := hkeys
  show MsgData.totals _ = totalsOf _
  generalize totalsOf (md.remove item).all = t at *
  unfold MsgData.totals
  by_cases hq : item.qos = .q0
  · simp only [hq, ne_eq, not_true, if_false] at hc12 hb12
    ext <;> simp only [MsgData.remove, hq, ne_eq, not_true, if_false] <;> omega
  · simp only [hq, ne_eq, not_false_eq_true, if_true] at hc12 hb12
    ext <;> simp only [MsgData.remove, hq, ne_eq, not_false_eq_true, if_true] <;> omega

end Totals

/-! ## The ledger -/

def placedIn (journal : List Event) : List ClientMsg :=
  journal.filterMap fun
    | .placed msg => some msg.key
    | _ => none

def removedIn (journal : List Event) : List ClientMsg :=
  journal.filterMap fun e => e.removes.map ClientMsg.key

/-- **The ledger of a client's outgoing messages.** What was placed is what the lists
hold and what was removed, each removal had its cause, no message is listed twice, and
the totals are right. -/
structure Conserved (m : Machine) : Prop where
  balance : (placedIn m.ctx.journal).Perm
    (m.ctx.msgsOut.all.map ClientMsg.key ++ removedIn m.ctx.journal)
  legit : ∀ e ∈ m.ctx.journal, e.Legit
  nodup : (m.ctx.msgsOut.all.map (·.addr)).Nodup
  tallied : m.ctx.msgsOut.Tallied

section Ledger

variable {R : Rules} {m m' : Machine}

theorem placedIn_append (j j' : List Event) : placedIn (j ++ j') = placedIn j ++ placedIn j' :=
  List.filterMap_append

theorem removedIn_append (j j' : List Event) : removedIn (j ++ j') = removedIn j ++ removedIn j' :=
  List.filterMap_append

theorem removedIn_removes {e : Event} {msg : ClientMsg} (he : e.removes = some msg) :
    placedIn [e] = [] ∧ removedIn [e] = [msg.key] := by
  cases e with
  | placed _ => cases he
  | received _ => cases he
  | acked _ _ _ _ => cases he; exact ⟨rfl, rfl⟩
  | expired _ _ => cases he; exact ⟨rfl, rfl⟩
  | published _ _ => cases he; exact ⟨rfl, rfl⟩

theorem conserved_of_shuffle (hc : Conserved m) (hj : m'.ctx.journal = m.ctx.journal)
    (h : Shuffle m.ctx.msgsOut m'.ctx.msgsOut) : Conserved m' := by
  refine ⟨?_, hj ▸ hc.legit, h.perm_addr.nodup_iff.mpr hc.nodup, h.tallied hc.tallied⟩
  rw [hj]
  exact hc.balance.trans (h.perm.symm.append_right _)

theorem conserved_place {msg : ClientMsg} (hc : Conserved m)
    (hs : Sound .mdOut (placeMsg .mdOut msg msg.qos m)) :
    Conserved (placeMsg .mdOut msg msg.qos m) := by
  have hperm := MsgData.place_count_all m.ctx.msgsOut msg msg.qos
  refine ⟨?_, fun e he => ?_, hs.nodup, MsgData.tallied_place msg hc.tallied⟩
  · show (placedIn (m.ctx.journal ++ [.placed msg])).Perm
      (_ ++ removedIn (m.ctx.journal ++ [.placed msg]))
    rw [placedIn_append, removedIn_append]
    show (placedIn m.ctx.journal ++ [msg.key]).Perm (_ ++ (removedIn m.ctx.journal ++ []))
    rw [List.append_nil]
    refine (List.perm_append_singleton _ _).trans ?_
    exact (hc.balance.cons _).trans ((hperm.map ClientMsg.key).symm.append_right _)
  · change e ∈ m.ctx.journal ++ [.placed msg] at he
    rcases List.mem_append.mp he with he | he
    · exact hc.legit e he
    · rw [List.mem_singleton.mp he]
      trivial

theorem conserved_received {msg : ClientMsg} {qos : Qos} (hc : Conserved m) :
    Conserved (placeMsg .mdIn msg qos m) := by
  refine ⟨?_, fun e he => ?_, hc.nodup, hc.tallied⟩
  · show (placedIn (m.ctx.journal ++ [.received msg])).Perm
      (_ ++ removedIn (m.ctx.journal ++ [.received msg]))
    rw [placedIn_append, removedIn_append]
    exact (List.append_nil _).symm ▸ (List.append_nil (removedIn _)).symm ▸ hc.balance
  · rcases List.mem_append.mp he with he | he
    · exact hc.legit e he
    · rw [List.mem_singleton.mp he]
      trivial

theorem conserved_removeOut {item : ClientMsg} {e : Event} (hc : Conserved m)
    (hmem : item.key ∈ m.ctx.msgsOut.inflight.map ClientMsg.key) (he : e.removes = some item)
    (hlegit : e.Legit) (hs : Sound .mdOut (removeOut item e m)) :
    Conserved (removeOut item e m) := by
  have hperm := MsgData.remove_perm hc.nodup hmem
  obtain ⟨hplaced, hremoved⟩ := removedIn_removes he
  refine ⟨?_, fun e' he' => ?_, hs.nodup, MsgData.tallied_remove hc.nodup hmem hc.tallied⟩
  · show (placedIn (m.ctx.journal ++ [e])).Perm (_ ++ removedIn (m.ctx.journal ++ [e]))
    rw [placedIn_append, removedIn_append, hplaced, hremoved, List.append_nil, ← List.append_assoc]
    refine (hc.balance.trans (hperm.append_right _)).trans ?_
    exact (List.perm_append_singleton _ _).symm
  · change e' ∈ m.ctx.journal ++ [e] at he'
    rcases List.mem_append.mp he' with he' | he'
    · exact hc.legit e' he'
    · rw [List.mem_singleton.mp he']
      exact hlegit

theorem conserved_micro (hx : R.exact = true) (hs : Sound .mdOut m) (hc : Conserved m)
    (h : Micro R m m') : Conserved m' := by
  have hs' := sound_micro hs h
  cases h with
  | frame hf => exact conserved_of_shuffle hc hf.journal (hf.msgsOut ▸ Shuffle.refl _)
  | publish p hp => exact conserved_of_shuffle hc rfl (Shuffle.refl _)
  | command c => exact conserved_of_shuffle hc rfl (Shuffle.refl _)
  | @shuffle dir md hdir hsh =>
    cases dir with
    | mdIn => exact conserved_of_shuffle hc rfl (Shuffle.refl _)
    | mdOut => exact conserved_of_shuffle hc rfl hsh
  | @place dir msg qos hdir hid hlive haddr hmode hexact =>
    cases dir with
    | mdIn => exact conserved_received hc
    | mdOut =>
      obtain ⟨rfl, -⟩ := hexact hx
      exact conserved_place hc hs'
  | removeOut hdir hmem he hexact => exact conserved_removeOut hc hmem he (hexact hx) hs'
  | removeIn hdir hmem => exact conserved_of_shuffle hc rfl (Shuffle.refl _)

theorem conserved_steps (hx : R.exact = true) (hs : Sound .mdOut m) (hc : Conserved m)
    (h : Steps R m m') : Conserved m' := by
  induction h with
  | refl => exact hc
  | tail h hstep ih => exact conserved_micro hx (sound_steps hs h) ih hstep

end Ledger

/-! ## Calls of one connection -/

/-- The calls that move outgoing messages. Between two of them everything but the lists,
their totals and the journal may change: the clock, the mode, the socket, the quota, the
incoming messages, what the network will answer, and other clients allocate messages. -/
inductive Call where
  | insert (mid : UInt16) (qos : Qos) (retain : Bool) (stored : MsgStore)
    (properties : List Property) (update : Bool)
  | deleteOutgoing (mid : UInt16) (expectState : MsgState) (qos : Qos)
  | updateOutgoing (mid : UInt16) (qos : Qos)
  | writeInflightOutLatest
  | writeInflightOutAll
  | writeQueuedOut
  | writeStorageOut
  | between (db : MosquittoDb) (ctx : Context)

namespace Call

/-- What a `between` leaves of the machine. -/
def interlude (db : MosquittoDb) (ctx : Context) (m : Machine) : Machine :=
  { db := { db with nextMsg := m.db.nextMsg + db.nextMsg }
    ctx := { ctx with
      journal := m.ctx.journal
      msgsOut := { m.ctx.msgsOut with inflightQuota := ctx.msgsOut.inflightQuota
                                      inflightMaximum := ctx.msgsOut.inflightMaximum } } }

/-- The machine after a call. -/
def exec (net : Net) (m : Machine) : Call → Machine
  | insert mid qos retain stored properties update =>
    (messageInsert net mid .mdOut qos retain stored properties update m).2
  | deleteOutgoing mid expectState qos => (messageDeleteOutgoing net mid expectState qos m).2
  | updateOutgoing mid qos => (messageUpdateOutgoing mid .waitForPubcomp qos m).2
  | writeInflightOutLatest => (messageWriteInflightOutLatest net m).2
  | writeInflightOutAll => (messageWriteInflightOutAll net m).2
  | writeQueuedOut => (messageWriteQueuedOut m).2
  | writeStorageOut => (messageWriteStorageOut m).2
  | between db ctx => interlude db ctx m

/-- A message is inserted at a QoS the client accepts. -/
def Valid (m : Machine) : Call → Prop
  | insert _ qos _ _ _ _ => qos.toNat ≤ m.ctx.maxQos.toNat
  | _ => True

end Call

/-! ## What the entries say

Every entry of the journal is about the call that writes it: its own message id, state and QoS,
the clock of that moment, the result that the network gave. -/

/-- The journal grows by such entries, and the clock of the broker's loop stays. -/
def Records (P : Event → Prop) (m m' : Machine) : Prop :=
  m'.db.nowRealS = m.db.nowRealS ∧ ∃ new, m'.ctx.journal = m.ctx.journal ++ new ∧ ∀ e ∈ new, P e

/-- `send__publish` gave this result to some message. -/
def Answered (net : Net) (rc : Rc) : Prop := ∃ p m, rc = (sendPublish net p m).1

/-- What sending writes down: a message expired now, or the network answered. -/
def Sent (net : Net) (now : Int) : Event → Prop
  | .expired msg t => t = now ∧ msg.store.messageExpiryTime ≠ 0 ∧
      msg.store.messageExpiryTime < now
  | .published _ rc => Answered net rc ∧ (rc = Rc.success ∨ rc = Rc.oversizePacket)
  | _ => False

section Records

variable {P Q : Event → Prop} {net : Net} {m m' m'' : Machine}

theorem Records.same (hnow : m'.db.nowRealS = m.db.nowRealS)
    (hj : m'.ctx.journal = m.ctx.journal) : Records P m m' :=
  ⟨hnow, [], by rw [hj, List.append_nil], fun _ h => absurd h List.not_mem_nil⟩

theorem Records.refl (m : Machine) : Records P m m := .same rfl rfl

theorem Records.trans (h : Records P m m') (h' : Records P m' m'') : Records P m m'' := by
  obtain ⟨hnow, new, hj, hnew⟩ := h
  obtain ⟨hnow', new', hj', hnew'⟩ := h'
  refine ⟨hnow'.trans hnow, new ++ new', by rw [hj', hj, List.append_assoc], fun e he => ?_⟩
  exact (List.mem_append.mp he).elim (hnew e) (hnew' e)

theorem Records.mono (h : Records P m m') (hpq : ∀ e, P e → Q e) : Records Q m m' :=
  ⟨h.1, h.2.imp fun _ hn => ⟨hn.1, fun e he => hpq e (hn.2 e he)⟩⟩

theorem Records.log {e : Event} (hnow : m'.db.nowRealS = m.db.nowRealS)
    (hj : m'.ctx.journal = m.ctx.journal ++ [e]) (he : P e) : Records P m m' :=
  ⟨hnow, [e], hj, fun _ hmem => List.mem_singleton.mp hmem ▸ he⟩

theorem records_removeOut {e : Event} (he : P e) (msg : ClientMsg) (m : Machine) :
    Records P m (removeOut msg e m) := by
  refine .log ?_ rfl he
  show (m.db.msgStoreRefDec msg.store.addr).nowRealS = m.db.nowRealS
  unfold MosquittoDb.msgStoreRefDec
  split
  · rfl
  · split
    · rfl
    · rfl

theorem records_sendMapped (p : Publish) (m : Machine) : Records P m (sendMapped net p m).2 := by
  have hstamp : Records P m (stampSendTime p.topic m) := by
    unfold stampSendTime
    split
    · exact .same rfl rfl
    · exact .refl m
  unfold sendMapped
  split
  · exact .refl m
  · exact .same rfl rfl
  · exact hstamp.trans (.same rfl rfl)

theorem records_sendPublish (p : Publish) (m : Machine) : Records P m (sendPublish net p m).2 := by
  unfold sendPublish
  split
  · exact .refl m
  · simp only
    split
    · exact records_sendMapped _ m
    · split
      · exact records_sendMapped _ m
      · exact .refl m

theorem records_afterPublish (msg : ClientMsg) (next : Option MsgState) {r : Rc × Machine}
    {now : Int} (hr : Answered net r.1) :
    Records (Sent net now) r.2 (afterPublish msg next r).2 := by
  unfold afterPublish
  split
  · rename_i hrc
    cases next with
    | none => exact records_removeOut ⟨hr, .inl hrc⟩ msg r.2
    | some s => exact .same rfl rfl
  · split
    · rename_i hrc
      exact records_removeOut ⟨hr, .inr hrc⟩ msg r.2
    · exact .refl r.2

theorem records_single (msg : ClientMsg) (m : Machine) :
    Records (Sent net m.db.nowRealS) m (messageWriteInflightOutSingle net msg m).2 := by
  have hpublish : ∀ (p : Publish) (next : Option MsgState), Records (Sent net m.db.nowRealS) m
      (afterPublish msg next (sendPublish net p m)).2 := fun p next =>
    (records_sendPublish p m).trans (records_afterPublish msg next ⟨p, m, rfl⟩)
  unfold messageWriteInflightOutSingle
  simp only
  split
  · rename_i hexpired
    split
    · exact (Records.same rfl rfl).trans (records_removeOut ⟨rfl, hexpired⟩ msg _)
    · exact records_removeOut ⟨rfl, hexpired⟩ msg m
  · split
    · exact hpublish _ _
    · exact hpublish _ _
    · exact hpublish _ _
    · split
      · exact .same rfl rfl
      · exact .same rfl rfl
    · exact .refl m

theorem records_writeInflightLoop (l : List ClientMsg) (m : Machine) :
    Records (Sent net m.db.nowRealS) m (writeInflightLoop net l m).2 := by
  induction l generalizing m with
  | nil => exact .refl m
  | cons msg rest ih =>
    have hone := @records_single net msg m
    have hrest := ih (messageWriteInflightOutSingle net msg m).2
    rw [hone.1] at hrest
    unfold writeInflightLoop
    simp only
    split
    · exact hone
    · exact hone.trans hrest

theorem records_latest (m : Machine) :
    Records (Sent net m.db.nowRealS) m (messageWriteInflightOutLatest net m).2 := by
  unfold messageWriteInflightOutLatest
  split
  · exact .refl m
  · exact records_writeInflightLoop _ m

theorem records_all (m : Machine) :
    Records (Sent net m.db.nowRealS) m (messageWriteInflightOutAll net m).2 := by
  unfold messageWriteInflightOutAll
  split
  · exact .refl m
  · exact records_writeInflightLoop _ m

theorem records_queuedOut (m : Machine) : Records P m (messageWriteQueuedOut m).2 := by
  unfold messageWriteQueuedOut
  split
  · exact .refl m
  · exact .same rfl rfl

theorem records_storageOut (m : Machine) : Records P m (messageWriteStorageOut m).2 := by
  unfold messageWriteStorageOut
  split
  · exact .refl m
  · exact .same rfl rfl

theorem records_insertState (dir : Direction) (qos : Qos) (stored : MsgStore) (m : Machine) :
    Records P m (insertState dir qos stored m).2 := by
  have hleave : Records P m (leaveSlowMode m) := by
    unfold leaveSlowMode Context.setMode
    simp only
    split
    · split
      · exact .same rfl rfl
      · exact .same rfl rfl
    · exact .same rfl rfl
  have hdrop : ∀ {m' : Machine}, Records P m m' →
      Records P m { m' with ctx := { m'.ctx with isDropping := true } } :=
    fun h => h.trans (.same rfl rfl)
  unfold insertState
  simp only
  split
  · split
    · exact hleave
    · split
      · split
        · exact hleave
        · split
          · exact hleave
          · exact hleave
      · split
        · exact hleave
        · exact hdrop hleave
  · split
    · exact .refl m
    · exact hdrop (.refl m)

theorem records_insertAfter (dir : Direction) (qos : Qos) (retain : Bool) (stored : MsgStore)
    (id : Bytes) (m : Machine) : Records P m (insertAfter dir qos retain stored id m) := by
  have hnote : Records P m (noteDestId dir retain stored id m) := by
    unfold noteDestId
    split
    · exact .same rfl rfl
    · exact .refl m
  have hwake : ∀ m : Machine, Records P m (wakeLazyBridge m) := by
    intro m
    unfold wakeLazyBridge
    split
    · split
      · exact .same rfl rfl
      · exact .refl m
    · exact .refl m
  unfold insertAfter
  simp only
  split
  · exact (hnote.trans (hwake _)).trans (.same rfl rfl)
  · exact hnote.trans (hwake _)

end Records

namespace Call

/-- The entries a call may write. -/
def Records (net : Net) (m : Machine) : Call → Event → Prop
  | insert mid qos retain stored properties _, e => Sent net m.db.nowRealS e ∨
      ∃ msg, e = .placed msg ∧ msg.mid = mid ∧ msg.qos = Qos.min qos m.ctx.maxQos ∧
        msg.retain = retain ∧ msg.store = stored ∧ msg.properties = properties
  | deleteOutgoing mid expectState qos, e => Sent net m.db.nowRealS e ∨
      ∃ msg ∈ m.ctx.msgsOut.inflight, msg.mid = mid ∧ e = .acked msg mid expectState qos
  | writeInflightOutLatest, e => Sent net m.db.nowRealS e
  | writeInflightOutAll, e => Sent net m.db.nowRealS e
  | _, _ => False

end Call

/-- The machines that calls lead to from `m₀`, each on a network of its own. -/
inductive Reach (m₀ : Machine) : Machine → Prop where
  | start : Reach m₀ m₀
  | call {m : Machine} (h : Reach m₀ m) (net : Net) (c : Call) (hv : c.Valid m) :
    Reach m₀ (c.exec net m)

/-- Empty outgoing lists, and nothing written down. -/
def Clear (m : Machine) : Prop :=
  m.ctx.msgsOut.all = [] ∧ m.ctx.msgsOut.totals = ⟨0, 0, 0, 0⟩ ∧ m.ctx.journal = []

/-- A network that takes everything at once. -/
def Net.taking : Net :=
  { remap := fun _ _ _ => none
    realPublish := fun _ ctx _ => (Rc.success, ctx.out)
    command := fun _ ctx _ => (Rc.success, ctx.out)
    write := fun _ ctx => (Rc.success, ctx.out) }

section Run

variable {m₀ m : Machine}

/-- Exact steps on the outgoing messages. -/
def exactOut (net : Net) : Rules :=
  { net, exact := true, slow := false, live := fun _ => True, touch := (· = .mdOut) }

theorem clear_spec (h : Clear m) : (∀ R, Ready R m) ∧ Conserved m := by
  obtain ⟨hall, htotals, hjournal⟩ := h
  refine ⟨fun R => ⟨⟨?_, ?_⟩, fun _ => ?_⟩, ⟨?_, ?_, ?_, ?_⟩⟩
  · show (m.ctx.msgsOut.all.map _).Nodup
    simp [hall]
  · show ∀ a ∈ m.ctx.msgsOut.all, _
    simp [hall]
  · simp [StatesOk, hall]
  · simp [hall, hjournal, placedIn, removedIn]
  · simp [hjournal]
  · simp [hall]
  · show m.ctx.msgsOut.totals = totalsOf m.ctx.msgsOut.all
    rw [htotals, hall]
    rfl

theorem ready_between {R : Rules} (h : Ready R m) (db : MosquittoDb) (ctx : Context) :
    Ready R (Call.interlude db ctx m) :=
  ⟨⟨h.sound.nodup, fun a ha => (h.sound.fresh a ha).trans_le (Nat.le_add_right _ _)⟩, h.states⟩

theorem call_spec (net : Net) {c : Call} (h : Sound .mdOut m ∧ StatesOk m) (hc : Conserved m)
    (hv : c.Valid m) :
    (Sound .mdOut (c.exec net m) ∧ StatesOk (c.exec net m)) ∧ Conserved (c.exec net m) := by
  have hr : Ready (exactOut net) m := ⟨h.1, fun _ => h.2⟩
  have ht : (exactOut net).touch .mdOut := rfl
  have hsteps : ∀ {m'}, Steps (exactOut net) m m' →
      (Sound .mdOut m' ∧ StatesOk m') ∧ Conserved m' := fun hm =>
    ⟨⟨(hr.steps hm).sound, (hr.steps hm).states rfl⟩, conserved_steps rfl h.1 hc hm⟩
  cases c with
  | insert mid qos retain stored properties update =>
    exact hsteps (steps_messageInsert ht hr trivial mid qos retain properties update
      fun _ => Qos.min_eq_left hv)
  | deleteOutgoing mid expectState qos =>
    exact hsteps (steps_messageDeleteOutgoing ht hr mid expectState qos)
  | updateOutgoing mid qos => exact hsteps (steps_messageUpdateOutgoing ht m mid qos rfl)
  | writeInflightOutLatest => exact hsteps (steps_messageWriteInflightOutLatest ht hr)
  | writeInflightOutAll => exact hsteps (steps_messageWriteInflightOutAll ht hr)
  | writeQueuedOut => exact hsteps (steps_messageWriteQueuedOut ht m)
  | writeStorageOut => exact hsteps (steps_messageWriteStorageOut ht m)
  | between db ctx =>
    have hb := ready_between hr db ctx
    refine ⟨⟨hb.sound, hb.states rfl⟩, conserved_of_shuffle hc rfl ?_⟩
    exact .ofPerm (List.Perm.refl _) (List.Sublist.refl _) rfl

theorem records_messageInsert (net : Net) (mid : UInt16) (qos : Qos) (retain : Bool)
    (stored : MsgStore) (properties : List Property) (update : Bool) (m : Machine) :
    Records ((Call.insert mid qos retain stored properties update).Records net m) m
      (messageInsert net mid .mdOut qos retain stored properties update m).2 := by
  unfold messageInsert
  split
  · exact .refl m
  rename_i id hid
  split
  · exact .refl m
  have hstate := records_insertState (P := (Call.insert mid qos retain stored properties
    update).Records net m) .mdOut qos stored m
  have hmax : (insertState .mdOut qos stored m).2.ctx.maxQos = m.ctx.maxQos :=
    Context.of_core (·.maxQos) (fun _ => rfl)
      (frame_insertState (R := exactOut net) .mdOut qos stored m).core
  split
  · rename_i hs
    rw [hs] at hstate
    exact hstate
  rename_i state rc m₁ hs
  rw [hs] at hstate hmax
  have hplace : Records ((Call.insert mid qos retain stored properties update).Records net m)
      m₁ (insertMsg mid .mdOut qos retain stored properties state m₁) := by
    refine .log (e := .placed _) ?_ rfl (.inr ⟨_, rfl, rfl, ?_, rfl, rfl, rfl⟩)
    · unfold insertMsg
      simp only
      split
      · rfl
      · rfl
    · exact congrArg (Qos.min qos) hmax
  have hplaced := (hstate.trans hplace).trans (records_insertAfter .mdOut qos retain stored id _)
  have hlatest := @records_latest net (insertAfter .mdOut qos retain stored id
    (insertMsg mid .mdOut qos retain stored properties state m₁))
  rw [hplaced.1] at hlatest
  have hwritten := hplaced.trans (hlatest.mono fun _ => .inl)
  simp only
  split
  · split
    · exact hwritten
    · split
      · exact hwritten.trans (records_queuedOut _)
      · exact (hwritten.trans (records_queuedOut _)).trans (records_storageOut _)
  · exact hplaced

theorem records_messageDeleteOutgoing (net : Net) (mid : UInt16) (expectState : MsgState)
    (qos : Qos) (m : Machine) :
    Records ((Call.deleteOutgoing mid expectState qos).Records net m) m
      (messageDeleteOutgoing net mid expectState qos m).2 := by
  have hgo : ∀ (m' : Machine) (f : MsgData → MsgData), m'.db.nowRealS = m.db.nowRealS →
      Records ((Call.deleteOutgoing mid expectState qos).Records net m) m'
        (messageWriteInflightOutLatest net (m'.onMsgs .mdOut f)).2 := by
    intro m' f hnow
    have hlatest := @records_latest net (m'.onMsgs .mdOut f)
    rw [show (m'.onMsgs .mdOut f).db.nowRealS = m.db.nowRealS from hnow] at hlatest
    exact (Records.same rfl rfl).trans (hlatest.mono fun _ => .inl)
  unfold messageDeleteOutgoing
  simp only
  split
  · exact hgo m _ rfl
  · rename_i tail htail
    have hmem := List.mem_of_find?_eq_some htail
    have hmid : tail.mid = mid := by simpa using List.find?_some htail
    split
    · exact .refl m
    · split
      · exact .refl m
      · have hacked : Records ((Call.deleteOutgoing mid expectState qos).Records net m) m
            (removeOut tail (.acked tail mid expectState qos) m) :=
          records_removeOut (.inr ⟨tail, hmem, hmid, rfl⟩) tail m
        exact hacked.trans (hgo _ _ hacked.1)

theorem journal_messageUpdateOutgoing (mid : UInt16) (qos : Qos) (m : Machine) :
    (messageUpdateOutgoing mid .waitForPubcomp qos m).2.ctx.journal = m.ctx.journal := by
  unfold messageUpdateOutgoing
  split
  · rfl
  · split
    · rfl
    · rfl

/-- **Every entry is about its call.** -/
theorem call_records (net : Net) (c : Call) (m : Machine) :
    ∃ new, (c.exec net m).ctx.journal = m.ctx.journal ++ new ∧ ∀ e ∈ new, c.Records net m e := by
  suffices Records (c.Records net m) m (c.exec net m) ∨
      (c.exec net m).ctx.journal = m.ctx.journal by
    rcases this with h | h
    · exact h.2
    · exact ⟨[], by rw [h, List.append_nil], fun _ h => absurd h List.not_mem_nil⟩
  cases c with
  | insert mid qos retain stored properties update =>
    exact .inl (records_messageInsert net mid qos retain stored properties update m)
  | deleteOutgoing mid expectState qos =>
    exact .inl (records_messageDeleteOutgoing net mid expectState qos m)
  | updateOutgoing mid qos => exact .inr (journal_messageUpdateOutgoing mid qos m)
  | writeInflightOutLatest => exact .inl (records_latest m)
  | writeInflightOutAll => exact .inl (records_all m)
  | writeQueuedOut => exact .inl (records_queuedOut m)
  | writeStorageOut => exact .inl (records_storageOut m)
  | between db ctx => exact .inr rfl

/-- **Outgoing messages are conserved.** -/
theorem outgoing_conserved (h₀ : Clear m₀) (h : Reach m₀ m) : Conserved m := by
  suffices (Sound .mdOut m ∧ StatesOk m) ∧ Conserved m from this.2
  induction h with
  | start =>
    obtain ⟨hr, hc⟩ := clear_spec h₀
    have hr := hr (exactOut Net.taking)
    exact ⟨⟨hr.sound, hr.states rfl⟩, hc⟩
  | call _ net c hv ih => exact call_spec net ih.1 ih.2 hv

end Run

def MsgStore.byte (addr : StoreId) : MsgStore :=
  { addr, origin := .moClient, sourceId := ascii "p", sourceMid := 0, topic := ascii "t"
    payload := [0], properties := [], messageExpiryTime := 0, qos := .q2, retain := false }

/-- A broker with the default configuration and four messages, where no time passes, and
a client that has just connected. -/
def Machine.idle : Machine :=
  { db := { MosquittoDb.dbOpen Config.init fun _ => ⟨1, 0, 1⟩ with
      msgStore := [1, 2, 3, 4].foldl (fun h s => h.set s ⟨MsgStore.byte s, 1, []⟩) ∅ }
    ctx := { Context.init Config.init (some 3) with
      id := some (ascii "c"), state := .active, protocol := .mqtt311 } }

/-- A message is inserted, sent and acknowledged. -/
theorem outgoing_conserved_puback :
    let insert := Call.insert 1 .q1 false (MsgStore.byte 1) [] true
    let puback := Call.deleteOutgoing 1 .waitForPubcomp .q1
    let m := puback.exec Net.taking (insert.exec Net.taking Machine.idle)
    m.ctx.journal.length = 2 ∧ Conserved m := by
  intro insert puback m
  have hinsert : insert.Valid Machine.idle := Nat.le_succ 1
  have hreach := (Reach.start.call Net.taking insert hinsert).call Net.taking puback trivial
  exact ⟨rfl, outgoing_conserved ⟨rfl, rfl, rfl⟩ hreach⟩

end AdaptiveMqtt.Db
