import AdaptiveMqtt.Db.Model

/-!
# What the message database can do

The functions of `database.c` that move messages between the lists of a client are
sequences of seven small steps (`Micro`): something outside the lists changes, a
PUBLISH or another packet is queued, the lists are shuffled, a message is placed, an
outgoing message is removed for a reason that is written down, an incoming one is
removed. Every invariant of message lists, totals, reference counts and packets is
proved for the small steps and holds of the functions by `Steps`.

A message is the same message while its `key` is: a write through a pointer
changes only its state, its time stamps and `dup`.
-/

namespace AdaptiveMqtt.Db

open Lib

/-- A message without the fields the code writes to. -/
def ClientMsg.key (msg : ClientMsg) : ClientMsg :=
  { msg with timestamp := 0, state := .invalid, dup := false, storageTime := 0 }

@[simp] theorem ClientMsg.key_addr (msg : ClientMsg) : msg.key.addr = msg.addr := rfl
@[simp] theorem ClientMsg.key_store (msg : ClientMsg) : msg.key.store = msg.store := rfl
@[simp] theorem ClientMsg.key_qos (msg : ClientMsg) : msg.key.qos = msg.qos := rfl
@[simp] theorem ClientMsg.key_toPublish (msg : ClientMsg) : msg.toPublish.key = msg.key := rfl

/-- The messages of the three lists. -/
def MsgData.all (md : MsgData) : List ClientMsg := md.inflight ++ md.queued ++ md.storage

theorem MsgData.mem_all {md : MsgData} {a : ClientMsg} :
    a ∈ md.all ↔ a ∈ md.inflight ∨ a ∈ md.queued ∨ a ∈ md.storage := by
  simp [MsgData.all]

/-- A message that waits for publish does so at its own QoS. -/
def ClientMsg.StateOk (msg : ClientMsg) : Prop :=
  MsgState.isPublish msg.state = true → msg.state = publishState msg.qos

theorem ClientMsg.stateOk_toPublish (msg : ClientMsg) : msg.toPublish.StateOk := fun _ => rfl

/-! ## Shuffles -/

/-- The lists hold the same messages, with the same totals; nothing enters storage. -/
structure Shuffle (md md' : MsgData) : Prop where
  perm : (md'.all.map ClientMsg.key).Perm (md.all.map ClientMsg.key)
  states : (∀ a ∈ md.all, a.StateOk) → ∀ a ∈ md'.all, a.StateOk
  storage : (md'.storage.map ClientMsg.key).Sublist (md.storage.map ClientMsg.key)
  msgBytes : md'.msgBytes = md.msgBytes
  msgBytes12 : md'.msgBytes12 = md.msgBytes12
  msgCount : md'.msgCount = md.msgCount
  msgCount12 : md'.msgCount12 = md.msgCount12

namespace Shuffle

variable {md md' md'' : MsgData}

theorem refl (md : MsgData) : Shuffle md md :=
  ⟨List.Perm.refl _, id, List.Sublist.refl _, rfl, rfl, rfl, rfl⟩

theorem trans (h : Shuffle md md') (h' : Shuffle md' md'') : Shuffle md md'' :=
  ⟨h'.perm.trans h.perm, fun hs => h'.states (h.states hs), h'.storage.trans h.storage,
    h'.msgBytes.trans h.msgBytes, h'.msgBytes12.trans h.msgBytes12,
    h'.msgCount.trans h.msgCount, h'.msgCount12.trans h.msgCount12⟩

theorem incrementQuota (md : MsgData) : Shuffle md md.incrementQuota := by
  unfold MsgData.incrementQuota
  split
  · exact ⟨List.Perm.refl _, id, List.Sublist.refl _, rfl, rfl, rfl, rfl⟩
  · exact refl md

theorem decrementQuota (md : MsgData) : Shuffle md md.decrementQuota := by
  unfold MsgData.decrementQuota
  split
  · exact ⟨List.Perm.refl _, id, List.Sublist.refl _, rfl, rfl, rfl, rfl⟩
  · exact refl md

end Shuffle

/-- A write that keeps the key and a fitting state. -/
structure Writes (f : ClientMsg → ClientMsg) : Prop where
  key : ∀ msg, (f msg).key = msg.key
  stateOk : ∀ msg, msg.StateOk → (f msg).StateOk

theorem writes_toPublish : Writes ClientMsg.toPublish :=
  ⟨fun _ => rfl, fun msg _ => msg.stateOk_toPublish⟩

section UpdateAt

variable {f : ClientMsg → ClientMsg} {addr : Nat} {l : List ClientMsg}

theorem map_key_updateAt (hf : Writes f) : (updateAt addr f l).map ClientMsg.key =
    l.map ClientMsg.key := by
  unfold updateAt
  rw [List.map_map]
  refine List.map_congr_left fun msg _ => ?_
  show (if msg.addr = addr then f msg else msg).key = msg.key
  split
  · exact hf.key msg
  · rfl

theorem stateOk_updateAt (hf : Writes f) (h : ∀ a ∈ l, a.StateOk) :
    ∀ a ∈ updateAt addr f l, a.StateOk := by
  intro a ha
  obtain ⟨b, hb, rfl⟩ := List.mem_map.mp ha
  split
  · exact hf.stateOk b (h b hb)
  · exact h b hb

theorem Shuffle.ofLists {md md' : MsgData}
    (hperm : (md'.all.map ClientMsg.key).Perm (md.all.map ClientMsg.key))
    (hstates : (∀ a ∈ md.all, a.StateOk) → ∀ a ∈ md'.all, a.StateOk)
    (hstorage : (md'.storage.map ClientMsg.key).Sublist (md.storage.map ClientMsg.key))
    (htotals : (md'.msgBytes, md'.msgBytes12, md'.msgCount, md'.msgCount12) =
      (md.msgBytes, md.msgBytes12, md.msgCount, md.msgCount12)) : Shuffle md md' := by
  simp only [Prod.mk.injEq] at htotals
  exact ⟨hperm, hstates, hstorage, htotals.1, htotals.2.1, htotals.2.2.1, htotals.2.2.2⟩

theorem Shuffle.updateInflight (hf : Writes f) (md : MsgData) :
    Shuffle md { md with inflight := updateAt addr f md.inflight } := by
  refine .ofLists ?_ (fun h a ha => ?_) (List.Sublist.refl _) rfl
  · simp only [MsgData.all, List.map_append, map_key_updateAt hf]
    exact List.Perm.refl _
  · rcases MsgData.mem_all.mp ha with ha | ha
    · exact stateOk_updateAt hf (fun b hb => h b (MsgData.mem_all.mpr (.inl hb))) a ha
    · exact h a (MsgData.mem_all.mpr (.inr ha))

theorem Shuffle.updateQueued (hf : Writes f) (md : MsgData) :
    Shuffle md { md with queued := updateAt addr f md.queued } := by
  refine .ofLists ?_ (fun h a ha => ?_) (List.Sublist.refl _) rfl
  · simp only [MsgData.all, List.map_append, map_key_updateAt hf]
    exact List.Perm.refl _
  · rcases MsgData.mem_all.mp ha with ha | ha | ha
    · exact h a (MsgData.mem_all.mpr (.inl ha))
    · exact stateOk_updateAt hf (fun b hb => h b (MsgData.mem_all.mpr (.inr (.inl hb)))) a ha
    · exact h a (MsgData.mem_all.mpr (.inr (.inr ha)))

theorem Shuffle.updateStorage (hf : Writes f) (md : MsgData) :
    Shuffle md { md with storage := updateAt addr f md.storage } := by
  refine .ofLists ?_ (fun h a ha => ?_) ?_ rfl
  · simp only [MsgData.all, List.map_append, map_key_updateAt hf]
    exact List.Perm.refl _
  · rcases MsgData.mem_all.mp ha with ha | ha | ha
    · exact h a (MsgData.mem_all.mpr (.inl ha))
    · exact h a (MsgData.mem_all.mpr (.inr (.inl ha)))
    · exact stateOk_updateAt hf (fun b hb => h b (MsgData.mem_all.mpr (.inr (.inr hb)))) a ha
  · show ((updateAt addr f md.storage).map ClientMsg.key).Sublist _
    rw [map_key_updateAt hf]

end UpdateAt

/-- Moving a message between lists. -/
theorem Shuffle.ofPerm {md md' : MsgData} (hperm : md'.all.Perm md.all)
    (hstorage : md'.storage.Sublist md.storage)
    (htotals : (md'.msgBytes, md'.msgBytes12, md'.msgCount, md'.msgCount12) =
      (md.msgBytes, md.msgBytes12, md.msgCount, md.msgCount12)) : Shuffle md md' :=
  .ofLists (hperm.map _) (fun h a ha => h a (hperm.subset ha)) (hstorage.map _) htotals

theorem Shuffle.dequeueFirst (md : MsgData) : Shuffle md md.dequeueFirst := by
  unfold MsgData.dequeueFirst
  split
  · exact refl md
  · rename_i msg rest hq
    have hmove : Shuffle md { md with queued := rest, inflight := md.inflight ++ [msg] } := by
      refine ofPerm ?_ (List.Sublist.refl _) rfl
      simp [MsgData.all, hq]
    exact hmove.trans (decrementQuota _)

theorem Shuffle.destorageFirst (md : MsgData) (b : Bool) : Shuffle md (md.destorageFirst b) := by
  unfold MsgData.destorageFirst
  split
  · exact refl md
  · rename_i msg rest hs
    have hsub : rest.Sublist md.storage := hs ▸ List.sublist_cons_self msg rest
    split
    · refine ofPerm ?_ hsub rfl
      simp [MsgData.all, hs]
    · have hmove : Shuffle md { md with storage := rest, inflight := md.inflight ++ [msg] } := by
        refine ofPerm ?_ hsub rfl
        rw [List.perm_iff_count]
        intro a
        simp only [MsgData.all, hs, List.count_append, List.count_cons, List.count_nil]
        omega
      exact hmove.trans (decrementQuota _)

/-! ## Small steps -/

/-- The message a journal entry removes, for a reason that holds of it. -/
def Event.Legit : Event → Prop
  | .placed _ => True
  | .received _ => True
  | .acked msg mid expectState qos =>
    msg.mid = mid ∧ msg.qos = qos ∧ (qos = .q2 → msg.state = expectState)
  | .expired msg now => msg.store.messageExpiryTime ≠ 0 ∧ now > msg.store.messageExpiryTime
  | .published msg rc => (rc = Rc.success ∧ msg.qos = .q0) ∨ rc = Rc.oversizePacket

/-- The message a journal entry removes. -/
def Event.removes : Event → Option ClientMsg
  | .placed _ => none
  | .received _ => none
  | .acked msg _ _ _ => some msg
  | .expired msg _ => some msg
  | .published msg _ => some msg

/-- The fields of a client that the database functions do not write. -/
def Context.core (ctx : Context) : Context :=
  { ctx with
    bridge := ctx.bridge.map fun b => { b with lazyReconnect := false }
    isDropping := false, mode := .normalMode, slowModeTime := 0, sendTime := (0, 0)
    latencyT := (0, 0), thresholdL := 0, latPre := [], countForLat := 0, msgsIn := .empty 0
    msgsOut := .empty 0, out := .empty, journal := [], early := false, replies := [] }

/-- What is stored, and how often it is referred to. -/
def MosquittoDb.refs (db : MosquittoDb) (s : StoreId) : Option (MsgStore × Int) :=
  (db.msgStore.get s).map fun e => (e.store, e.refCount)

/-- What a sequence of small steps may do. With `exact`, a message is placed at the QoS
it is counted at and every removal is legitimate; with `slow`, the client may go to slow
mode; only `live` stores get new references; only directions in `touch` are edited. -/
structure Rules where
  net : Net
  exact : Bool
  slow : Bool
  live : MsgStore → Prop
  touch : Direction → Prop

/-- The rules that allow everything. -/
def loose (net : Net) : Rules :=
  { net, exact := false, slow := true, live := fun _ => True, touch := fun _ => True }

/-- Nothing changes in the lists, the reference counts, the packets and the journal. -/
structure Frame (R : Rules) (m m' : Machine) : Prop where
  msgsIn : m'.ctx.msgsIn = m.ctx.msgsIn
  msgsOut : m'.ctx.msgsOut = m.ctx.msgsOut
  journal : m'.ctx.journal = m.ctx.journal
  out : m'.ctx.out = m.ctx.out
  early : m'.ctx.early = m.ctx.early
  core : m'.ctx.core = m.ctx.core
  nextMsg : m'.db.nextMsg = m.db.nextMsg
  lastDbId : m'.db.lastDbId = m.db.lastDbId
  config : m'.db.config = m.db.config
  refs : ∀ s, m'.db.refs s = m.db.refs s
  mode : m'.ctx.mode = m.ctx.mode ∨ m'.ctx.mode = .normalMode ∨ R.slow = true

/-- Place a message: reference, list, totals and journal. -/
def placeMsg (dir : Direction) (msg : ClientMsg) (qos : Qos) (m : Machine) : Machine :=
  let ctx := m.ctx.setMsgs dir (((m.ctx.msgs dir).place msg).count msg qos)
  { db := { m.db.msgStoreRefInc msg.store.addr with nextMsg := m.db.nextMsg + 1 }
    ctx := ctx.log (if dir = .mdOut then .placed msg else .received msg) }

/-- One small step. -/
inductive Micro (R : Rules) : Machine → Machine → Prop where
  | frame {m m' : Machine} (h : Frame R m m') : Micro R m m'
  | publish {m : Machine} (p : Publish) (hp : ∃ a ∈ m.ctx.msgsOut.inflight, a.store = p.store) :
    Micro R m (m.sent (R.net.realPublish m.db m.ctx p)).2
  | command {m : Machine} (c : Command) : Micro R m (sendCommand R.net c m).2
  | shuffle {m : Machine} (dir : Direction) {md : MsgData} (hdir : R.touch dir)
    (h : Shuffle (m.ctx.msgs dir) md) : Micro R m (m.onMsgs dir fun _ => md)
  | place {m : Machine} (dir : Direction) {msg : ClientMsg} {qos : Qos} (hdir : R.touch dir)
    (hid : m.ctx.id ≠ none) (hlive : R.live msg.store) (haddr : msg.addr = m.db.nextMsg)
    (hmode : msg.state = .storage → m.ctx.mode = .slowMode)
    (hexact : R.exact = true → msg.qos = qos ∧ msg.StateOk) :
    Micro R m (placeMsg dir msg qos m)
  | removeOut {m : Machine} {item : ClientMsg} {e : Event} (hdir : R.touch .mdOut)
    (hmem : item.key ∈ m.ctx.msgsOut.inflight.map ClientMsg.key) (he : e.removes = some item)
    (hexact : R.exact = true → e.Legit) : Micro R m (removeOut item e m)
  | removeIn {m : Machine} {item : ClientMsg} (hdir : R.touch .mdIn)
    (hmem : item.key ∈ m.ctx.msgsIn.inflight.map ClientMsg.key) :
    Micro R m (m.messageRemove .mdIn item)

abbrev Steps (R : Rules) : Machine → Machine → Prop := Relation.ReflTransGen (Micro R)

section Frame

variable {R : Rules} {m m' m'' : Machine}

theorem Frame.refl (m : Machine) : Frame R m m :=
  ⟨rfl, rfl, rfl, rfl, rfl, rfl, rfl, rfl, rfl, fun _ => rfl, .inl rfl⟩

theorem Frame.trans (h : Frame R m m') (h' : Frame R m' m'') : Frame R m m'' :=
  ⟨h'.msgsIn.trans h.msgsIn, h'.msgsOut.trans h.msgsOut, h'.journal.trans h.journal,
    h'.out.trans h.out, h'.early.trans h.early, h'.core.trans h.core, h'.nextMsg.trans h.nextMsg,
    h'.lastDbId.trans h.lastDbId, h'.config.trans h.config, fun s => (h'.refs s).trans (h.refs s),
    h'.mode.elim (fun e => e ▸ h.mode) .inr⟩

theorem Context.of_core {α : Type} (f : Context → α) (hf : ∀ ctx, f ctx.core = f ctx)
    {ctx ctx' : Context} (h : ctx'.core = ctx.core) : f ctx' = f ctx := by
  rw [← hf ctx', h, hf]

theorem Frame.msgs (h : Frame R m m') (d : Direction) : m'.ctx.msgs d = m.ctx.msgs d := by
  cases d
  · exact h.msgsIn
  · exact h.msgsOut

end Frame

section Accessors

variable (m : Machine) (ctx : Context) (md : MsgData)

@[simp] theorem Context.msgs_setMsgs_self (dir : Direction) : (ctx.setMsgs dir md).msgs dir = md := by
  cases dir <;> rfl

theorem Context.msgs_setMsgs_ne {dir dir' : Direction} (h : dir' ≠ dir) :
    (ctx.setMsgs dir md).msgs dir' = ctx.msgs dir' := by
  cases dir <;> cases dir' <;> first | rfl | exact absurd rfl h

@[simp] theorem Context.msgs_log (dir : Direction) (e : Event) :
    (ctx.log e).msgs dir = ctx.msgs dir := by
  cases dir <;> rfl

@[simp] theorem Context.setMsgs_journal (dir : Direction) :
    (ctx.setMsgs dir md).journal = ctx.journal := by
  cases dir <;> rfl

@[simp] theorem Context.setMsgs_mode (dir : Direction) : (ctx.setMsgs dir md).mode = ctx.mode := by
  cases dir <;> rfl

end Accessors

/-! ## Sound addresses -/

/-- The addresses of one direction are in use once and were allocated. -/
structure Sound (dir : Direction) (m : Machine) : Prop where
  nodup : ((m.ctx.msgs dir).all.map (·.addr)).Nodup
  fresh : ∀ a ∈ (m.ctx.msgs dir).all, a.addr < m.db.nextMsg

theorem map_addr_eq (l : List ClientMsg) :
    l.map (·.addr) = (l.map ClientMsg.key).map (·.addr) := by
  rw [List.map_map]
  rfl

theorem Shuffle.perm_addr {md md' : MsgData} (h : Shuffle md md') :
    (md'.all.map (·.addr)).Perm (md.all.map (·.addr)) := by
  rw [map_addr_eq, map_addr_eq md.all]
  exact h.perm.map _

theorem MsgData.place_perm (md : MsgData) (msg : ClientMsg) :
    (md.place msg).all.Perm (msg :: md.all) := by
  rw [List.perm_iff_count]
  intro a
  unfold MsgData.place MsgData.all
  split <;> simp only [List.count_append, List.count_cons, List.count_nil] <;> omega

theorem MsgData.remove_all (md : MsgData) (item : ClientMsg) :
    (md.remove item).all =
      md.inflight.eraseP (·.addr = item.addr) ++ md.queued ++ md.storage := by
  unfold MsgData.remove MsgData.all
  split <;> rfl

theorem MsgData.remove_storage (md : MsgData) (item : ClientMsg) :
    (md.remove item).storage = md.storage := by
  unfold MsgData.remove
  split <;> rfl

theorem MsgData.count_all (md : MsgData) (msg : ClientMsg) (qos : Qos) :
    (md.count msg qos).all = md.all ∧ (md.count msg qos).storage = md.storage := by
  unfold MsgData.count MsgData.all
  split <;> exact ⟨rfl, rfl⟩

theorem addr_inj {l : List ClientMsg} (hnd : (l.map (·.addr)).Nodup) {a b : ClientMsg}
    (ha : a ∈ l) (hb : b ∈ l) (h : a.addr = b.addr) : a = b :=
  List.inj_on_of_nodup_map hnd ha hb h

/-- Removing a listed message takes its key off the list. -/
theorem eraseP_perm {l : List ClientMsg} (hnd : (l.map (·.addr)).Nodup) {item : ClientMsg}
    (h : item.key ∈ l.map ClientMsg.key) :
    (l.map ClientMsg.key).Perm (item.key :: (l.eraseP (·.addr = item.addr)).map ClientMsg.key) := by
  induction l with
  | nil => cases h
  | cons a l ih =>
    rw [List.map_cons, List.nodup_cons] at hnd
    by_cases ha : a.addr = item.addr
    · rw [List.eraseP_cons_of_pos (by simpa using ha)]
      have hkey : a.key = item.key := by
        rcases List.mem_cons.mp h with h | h
        · exact h.symm
        · obtain ⟨b, hb, hk⟩ := List.mem_map.mp h
          have hba : b.addr = item.addr := congrArg (·.addr) hk
          exact absurd (List.mem_map.mpr ⟨b, hb, hba.trans ha.symm⟩) hnd.1
      rw [List.map_cons, hkey]
    · rw [List.eraseP_cons_of_neg (by simpa using ha), List.map_cons, List.map_cons]
      have hmem : item.key ∈ l.map ClientMsg.key := by
        rcases List.mem_cons.mp h with h | h
        · exact absurd (congrArg (·.addr) h).symm ha
        · exact h
      exact ((ih hnd.2 hmem).cons a.key).trans (List.Perm.swap _ _ _)

theorem MsgData.remove_perm {md : MsgData} (hnd : (md.all.map (·.addr)).Nodup) {item : ClientMsg}
    (h : item.key ∈ md.inflight.map ClientMsg.key) :
    (md.all.map ClientMsg.key).Perm (item.key :: (md.remove item).all.map ClientMsg.key) := by
  rw [MsgData.all, List.append_assoc, List.map_append] at hnd
  rw [MsgData.remove_all, MsgData.all]
  simp only [List.append_assoc, List.map_append, ← List.cons_append]
  exact (eraseP_perm (List.nodup_append.mp hnd).1 h).append_right _

theorem Sound.of_eq {d : Direction} {m m' : Machine} (hs : Sound d m)
    (hmsgs : m'.ctx.msgs d = m.ctx.msgs d) (hnext : m.db.nextMsg ≤ m'.db.nextMsg) : Sound d m' := by
  refine ⟨?_, fun a ha => ?_⟩
  · rw [hmsgs]
    exact hs.nodup
  · rw [hmsgs] at ha
    exact (hs.fresh a ha).trans_le hnext

theorem refDec_nextMsg (s : StoreId) (db : MosquittoDb) :
    (db.msgStoreRefDec s).nextMsg = db.nextMsg := by
  unfold MosquittoDb.msgStoreRefDec
  split
  · rfl
  · split <;> rfl

theorem refDec_config (s : StoreId) (db : MosquittoDb) :
    (db.msgStoreRefDec s).config = db.config := by
  unfold MosquittoDb.msgStoreRefDec
  split
  · rfl
  · split <;> rfl

theorem sound_remove {d : Direction} {m : Machine} (hs : Sound d m) (dir : Direction)
    (item : ClientMsg) : Sound d (m.messageRemove dir item) := by
  have hnext : (m.messageRemove dir item).db.nextMsg = m.db.nextMsg := refDec_nextMsg _ _
  by_cases hd : d = dir
  · subst hd
    have hall : ((m.messageRemove d item).ctx.msgs d).all.Sublist (m.ctx.msgs d).all := by
      show ((m.ctx.setMsgs d _).msgs d).all.Sublist _
      rw [Context.msgs_setMsgs_self, MsgData.remove_all, MsgData.all]
      exact (List.eraseP_sublist.append (List.Sublist.refl _)).append (List.Sublist.refl _)
    refine ⟨hs.nodup.sublist (hall.map _), fun a ha => ?_⟩
    rw [hnext]
    exact hs.fresh a (hall.subset ha)
  · exact hs.of_eq (Context.msgs_setMsgs_ne _ _ hd) hnext.ge

@[simp] theorem removeOut_msgs (item : ClientMsg) (e : Event) (m : Machine) (d : Direction) :
    (removeOut item e m).ctx.msgs d = (m.messageRemove .mdOut item).ctx.msgs d := by
  cases d <;> rfl

@[simp] theorem sent_msgs (m : Machine) (r : Rc × Out) (d : Direction) :
    (m.sent r).2.ctx.msgs d = m.ctx.msgs d := by
  cases d <;> rfl

@[simp] theorem sendCommand_msgs (net : Net) (c : Command) (m : Machine) (d : Direction) :
    (sendCommand net c m).2.ctx.msgs d = m.ctx.msgs d := by
  cases d <;> rfl

theorem placeMsg_msgs_self (dir : Direction) (msg : ClientMsg) (qos : Qos) (m : Machine) :
    (placeMsg dir msg qos m).ctx.msgs dir = ((m.ctx.msgs dir).place msg).count msg qos := by
  unfold placeMsg
  split <;> simp

theorem placeMsg_msgs_ne {dir d : Direction} (h : d ≠ dir) (msg : ClientMsg) (qos : Qos)
    (m : Machine) : (placeMsg dir msg qos m).ctx.msgs d = m.ctx.msgs d := by
  unfold placeMsg
  split <;> simp [Context.msgs_setMsgs_ne _ _ h]

theorem MsgData.place_count_all (md : MsgData) (msg : ClientMsg) (qos : Qos) :
    ((md.place msg).count msg qos).all.Perm (msg :: md.all) := by
  rw [(MsgData.count_all _ _ _).1]
  exact MsgData.place_perm md msg

section Keep

variable {R : Rules} {d : Direction} {m m' : Machine}

theorem Steps.keep {P : Machine → Prop} (hstep : ∀ {m m'}, P m → Micro R m m' → P m')
    (hm : P m) (h : Steps R m m') : P m' := by
  induction h with
  | refl => exact hm
  | tail _ h ih => exact hstep ih h

theorem sound_micro (hs : Sound d m) (h : Micro R m m') : Sound d m' := by
  cases h with
  | frame hf => exact hs.of_eq (hf.msgs d) hf.nextMsg.ge
  | publish p hp => exact hs.of_eq (sent_msgs _ _ d) le_rfl
  | command c => exact hs.of_eq (sendCommand_msgs _ _ _ d) le_rfl
  | @shuffle dir md hdir hsh =>
    by_cases hd : d = dir
    · subst hd
      have hmsgs : (m.onMsgs d fun _ => md).ctx.msgs d = md := Context.msgs_setMsgs_self _ _ _
      refine ⟨?_, fun a ha => ?_⟩
      · rw [hmsgs, hsh.perm_addr.nodup_iff]
        exact hs.nodup
      · rw [hmsgs] at ha
        obtain ⟨b, hb, hba⟩ := List.mem_map.mp
          (hsh.perm_addr.subset (List.mem_map.mpr ⟨a, ha, rfl⟩))
        rw [← hba]
        exact hs.fresh b hb
    · exact hs.of_eq (Context.msgs_setMsgs_ne _ _ hd) le_rfl
  | @place dir msg qos hdir hid hlive haddr hmode hexact =>
    by_cases hd : d = dir
    · subst hd
      have hperm : ((placeMsg d msg qos m).ctx.msgs d).all.Perm (msg :: (m.ctx.msgs d).all) := by
        rw [placeMsg_msgs_self]
        exact MsgData.place_count_all _ _ _
      refine ⟨?_, fun a ha => ?_⟩
      · rw [(hperm.map _).nodup_iff, List.map_cons, List.nodup_cons]
        refine ⟨fun hin => ?_, hs.nodup⟩
        obtain ⟨b, hb, hba⟩ := List.mem_map.mp hin
        have := hs.fresh b hb
        omega
      · show a.addr < m.db.nextMsg + 1
        rcases List.mem_cons.mp (hperm.subset ha) with rfl | ha
        · omega
        · exact (hs.fresh a ha).trans (Nat.lt_succ_self _)
    · exact hs.of_eq (placeMsg_msgs_ne hd _ _ _) (Nat.le_succ _)
  | @removeOut item e hdir hmem he hexact =>
    exact (sound_remove hs .mdOut item).of_eq (removeOut_msgs _ _ _ d) le_rfl
  | removeIn hdir hmem => exact sound_remove hs .mdIn _

theorem sound_steps (hs : Sound d m) (h : Steps R m m') : Sound d m' := h.keep sound_micro hs

/-- What no small step changes: the configuration, and the core of the client. -/
theorem core_micro (h : Micro R m m') :
    m'.db.config = m.db.config ∧ m'.ctx.core = m.ctx.core := by
  cases h with
  | frame hf => exact ⟨hf.config, hf.core⟩
  | publish p hp => exact ⟨rfl, rfl⟩
  | command c => exact ⟨rfl, rfl⟩
  | shuffle dir _ _ => cases dir <;> exact ⟨rfl, rfl⟩
  | place dir _ _ _ _ _ _ => cases dir <;> exact ⟨rfl, rfl⟩
  | removeOut _ _ _ _ => exact ⟨refDec_config _ _, rfl⟩
  | removeIn _ _ => exact ⟨refDec_config _ _, rfl⟩

theorem core_steps (h : Steps R m m') :
    m'.db.config = m.db.config ∧ m'.ctx.core = m.ctx.core := by
  induction h with
  | refl => exact ⟨rfl, rfl⟩
  | tail _ h ih => exact ⟨(core_micro h).1.trans ih.1, (core_micro h).2.trans ih.2⟩

/-- The messages of a direction that is not touched stay as they are. -/
theorem untouched_micro (hd : ¬ R.touch d) (h : Micro R m m') : m'.ctx.msgs d = m.ctx.msgs d := by
  have hne : ∀ {dir}, R.touch dir → d ≠ dir := fun hdir e => hd (e ▸ hdir)
  cases h with
  | frame hf => exact hf.msgs d
  | publish p hp => exact sent_msgs _ _ d
  | command c => exact sendCommand_msgs _ _ _ d
  | shuffle dir hdir _ => exact Context.msgs_setMsgs_ne _ _ (hne hdir)
  | place dir hdir _ _ _ _ _ => exact placeMsg_msgs_ne (hne hdir) _ _ _
  | removeOut hdir _ _ _ =>
    rw [removeOut_msgs]
    exact Context.msgs_setMsgs_ne _ _ (hne hdir)
  | removeIn hdir _ => exact Context.msgs_setMsgs_ne _ _ (hne hdir)

theorem untouched_steps (hd : ¬ R.touch d) (h : Steps R m m') :
    m'.ctx.msgs d = m.ctx.msgs d := by
  induction h with
  | refl => rfl
  | tail _ h ih => exact (untouched_micro hd h).trans ih

end Keep

end AdaptiveMqtt.Db
