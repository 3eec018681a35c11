import AdaptiveMqtt.Broker.OptIn
import AdaptiveMqtt.Broker.Once
import AdaptiveMqtt.Lib.RefCount

/-!
# Reference counts

Between two events the reference count of a stored message is the number of messages of
clients and of nodes of the retain tree that refer to it, as long as no client is freed that
has messages in storage.
-/

namespace AdaptiveMqtt.Db

open Lib

def MosquittoDb.counts (db : MosquittoDb) (s : StoreId) : Option Int :=
  (db.msgStore.get s).map (·.refCount)

section Counts

variable {R : Rules} {m m' : Machine}

theorem counts_of_refs {db db' : MosquittoDb} (h : ∀ s, db'.refs s = db.refs s) :
    db'.counts = db.counts := by
  funext s
  have hs := congrArg (Option.map Prod.snd) (h s)
  unfold MosquittoDb.refs at hs
  rw [Option.map_map, Option.map_map] at hs
  exact hs

theorem counts_refInc (a : StoreId) (db : MosquittoDb) :
    (db.msgStoreRefInc a).counts = incr a db.counts := by
  funext s
  show ((db.msgStore.modify a _).get s).map _ = _
  unfold incr
  rw [Heap.get_modify, Function.update_apply]
  split
  · rw [Option.map_map, MosquittoDb.counts, Option.map_map]
    rfl
  · rfl

theorem counts_refDec (a : StoreId) (db : MosquittoDb) :
    (db.msgStoreRefDec a).counts = decr a db.counts := by
  funext s
  unfold decr MosquittoDb.msgStoreRefDec MosquittoDb.counts
  rw [Function.update_apply]
  cases hget : db.msgStore.get a with
  | none =>
    simp only
    by_cases hs : s = a
    · rw [if_pos hs, hs, hget]
      rfl
    · rw [if_neg hs]
  | some e =>
    simp only [Option.map_some, Option.bind_some]
    by_cases hs : s = a
    · rw [if_pos hs, hs]
      split
      · rw [Heap.get_del_self]
        rfl
      · rw [Heap.get_set_self]
        rfl
    · rw [if_neg hs]
      split
      · rw [Heap.get_del_ne _ hs]
      · rw [Heap.get_set_ne _ _ hs]

/-- One list more or less by a message. -/
theorem refers_setMsgs {ctx : Context} {d : Direction} {md : MsgData} {a : ClientMsg}
    (h : ((ctx.msgs d).all.map ClientMsg.key).Perm (a.key :: md.all.map ClientMsg.key))
    (s : StoreId) : ctx.refers s = (ctx.setMsgs d md).refers s + one a.store.addr s := by
  obtain ⟨n, hn⟩ := refers_eq_msgs ctx s d
  obtain ⟨hafter, hbefore⟩ := hn md
  have hperm := h.countP_eq (·.store.addr = s)
  rw [List.countP_cons, countP_key, countP_key, ClientMsg.key_store] at hperm
  rw [hafter, hbefore, hperm]
  unfold one
  by_cases hs : s = a.store.addr
  · rw [if_pos hs, if_pos (decide_eq_true hs.symm)]
    omega
  · rw [if_neg hs, if_neg (by simpa using Ne.symm hs)]
    omega

/-- The same messages in other lists. -/
theorem refers_perm {ctx : Context} {d : Direction} {md : MsgData}
    (h : (md.all.map ClientMsg.key).Perm ((ctx.msgs d).all.map ClientMsg.key)) (s : StoreId) :
    (ctx.setMsgs d md).refers s = ctx.refers s := by
  obtain ⟨n, hn⟩ := refers_eq_msgs ctx s d
  have hperm := h.countP_eq (·.store.addr = s)
  rw [countP_key, countP_key] at hperm
  rw [(hn md).1, (hn md).2, hperm]

theorem refers_of_msgs {ctx ctx' : Context} (h : ∀ d, (ctx'.msgs d).all = (ctx.msgs d).all)
    (s : StoreId) : ctx'.refers s = ctx.refers s := by
  have hin : ctx'.msgsIn.all = ctx.msgsIn.all := h .mdIn
  have hout : ctx'.msgsOut.all = ctx.msgsOut.all := h .mdOut
  rw [Context.refers, Context.refers, hin, hout]

theorem refers_place (dir : Direction) (msg : ClientMsg) (qos : Qos) (m : Machine) (s : StoreId) :
    (placeMsg dir msg qos m).ctx.refers s = m.ctx.refers s + one msg.store.addr s := by
  have hset : (placeMsg dir msg qos m).ctx.refers s =
      (m.ctx.setMsgs dir (((m.ctx.msgs dir).place msg).count msg qos)).refers s := rfl
  have hback := @refers_setMsgs (m.ctx.setMsgs dir (((m.ctx.msgs dir).place msg).count msg qos)) dir
    (m.ctx.msgs dir) msg (by
      rw [Context.msgs_setMsgs_self]
      exact (MsgData.place_count_all (m.ctx.msgs dir) msg qos).map _) s
  rw [hset, hback]
  refine congrArg (· + _) (refers_of_msgs (fun d => ?_) s)
  by_cases hd : d = dir
  · rw [hd, Context.msgs_setMsgs_self]
  · rw [Context.msgs_setMsgs_ne _ _ hd, Context.msgs_setMsgs_ne _ _ hd]

theorem counts_place (dir : Direction) (msg : ClientMsg) (qos : Qos) (m : Machine) :
    (placeMsg dir msg qos m).db.counts = incr msg.store.addr m.db.counts :=
  counts_refInc msg.store.addr m.db

theorem refers_remove {d : Direction} (hs : Sound d m) {item : ClientMsg}
    (hmem : item.key ∈ (m.ctx.msgs d).inflight.map ClientMsg.key) (s : StoreId) :
    m.ctx.refers s = (m.messageRemove d item).ctx.refers s + one item.store.addr s :=
  refers_setMsgs (MsgData.remove_perm hs.nodup hmem) s

/-- **A small step takes a reference with a message, and gives it back.** -/
theorem refers_micro (hs : ∀ d, Sound d m) (hm : Micro R m m') :
    Refers (fun a => ∃ s, R.live s ∧ s.addr = a) m.ctx.refers m'.ctx.refers m.db.counts
      m'.db.counts := by
  cases hm with
  | frame hf => exact .same (refers_of_msgs fun d => by rw [hf.msgs d]) (counts_of_refs hf.refs)
  | publish p hp => exact .same (fun _ => rfl) rfl
  | command c => exact .same (fun _ => rfl) rfl
  | shuffle dir hdir hsh => exact .same (refers_perm hsh.perm) rfl
  | @place dir msg qos hdir hid hlive haddr hmode hexact =>
    exact .more msg.store.addr ⟨_, hlive, rfl⟩ (refers_place dir msg qos m)
      (counts_place dir msg qos m)
  | @removeOut item e hdir hmem he hexact =>
    exact .less item.store.addr (refers_remove (hs .mdOut) hmem) (counts_refDec _ _)
  | @removeIn item hdir hmem =>
    exact .less item.store.addr (refers_remove (hs .mdIn) hmem) (counts_refDec _ _)

end Counts

end AdaptiveMqtt.Db

namespace AdaptiveMqtt.Broker

open Lib AdaptiveMqtt.Sub Db

/-- Everything that refers to a store. -/
def World.total (w : World) (s : StoreId) : Nat :=
  w.b.refers s + w.b.retaining s + w.held.countP (·.addr = s)

structure World.Exact (w : World) : Prop where
  tallies : Tallies w.total w.b.db.counts (w.fresh.map (·.addr))
  below : ∀ s, w.b.db.counts s ≠ none → s ≤ w.b.db.lastDbId

section Exact

variable {T : Terms} {w w' : World} {c : CtxId} {ctx : Context}

theorem lastDbId_refDec (s : StoreId) (db : MosquittoDb) :
    (db.msgStoreRefDec s).lastDbId = db.lastDbId := by
  unfold MosquittoDb.msgStoreRefDec
  split
  · rfl
  · split <;> rfl

theorem lastDbId_micro {R : Rules} {m m' : Machine} (h : Micro R m m') :
    m'.db.lastDbId = m.db.lastDbId := by
  cases h with
  | frame hf => exact hf.lastDbId
  | removeOut hdir hmem he hexact => exact lastDbId_refDec _ _
  | removeIn hdir hmem => exact lastDbId_refDec _ _
  | _ => rfl

theorem pos_of_live {s : MsgStore} (h : w.Live s) : 0 < w.total s.addr := by
  rcases h with hheld | ⟨p, hp⟩
  · have hpos : 0 < w.held.countP (·.addr = s.addr) :=
      List.countP_pos_iff.mpr ⟨s, hheld, decide_eq_true rfl⟩
    unfold World.total
    omega
  · obtain ⟨h, hget, hret⟩ := Option.bind_eq_some_iff.mp hp
    have hle := Heap.le_sum
      (fun (_ : Path) (h : RetainHier) => if h.retained.any (·.addr = s.addr) then 1 else 0) hget
    have hone : (if h.retained.any (·.addr = s.addr) = true then 1 else 0) = 1 := by
      rw [hret, Option.any_some, decide_eq_true rfl, if_pos rfl]
    rw [hone] at hle
    unfold World.total State.retaining
    omega

theorem refers_pos {d : Direction} {msg : ClientMsg} (hmem : msg ∈ (ctx.msgs d).all) :
    0 < ctx.refers msg.store.addr := by
  have hpos : 0 < (ctx.msgs d).all.countP (·.store.addr = msg.store.addr) :=
    List.countP_pos_iff.mpr ⟨msg, hmem, decide_eq_true rfl⟩
  cases d
  · exact Nat.add_pos_left hpos _
  · exact Nat.add_pos_right _ hpos

theorem pos_of_listed {s : MsgStore} (h : w.Listed s) : 0 < w.total s.addr := by
  obtain ⟨c, ctx, d, hget, msg, hmem, rfl⟩ := h
  have hle := Heap.le_sum (fun (_ : CtxId) (ctx : Context) => ctx.refers msg.store.addr) hget
  have hpos := refers_pos hmem
  unfold World.total State.refers
  omega

/-- The references of the clients change with those of one client. -/
theorem total_put (hget : w.b.contexts.get c = some ctx) (m' : Machine) (s : StoreId) :
    (w.put c m').total s + ctx.refers s = w.total s + m'.ctx.refers s := by
  have hsum := Heap.sum_set_old (fun (_ : CtxId) (ctx : Context) => ctx.refers s) m'.ctx hget
  show (w.b.contexts.set c m'.ctx).sum _ + _ + _ + _ = _
  unfold World.total State.refers
  change _ + ctx.refers s = _ + m'.ctx.refers s at hsum
  have hret : (w.put c m').b.retaining s = w.b.retaining s := rfl
  rw [hret]
  show (w.b.contexts.set c m'.ctx).sum (fun _ ctx => ctx.refers s) + w.b.retaining s +
    w.held.countP (·.addr = s) + ctx.refers s = _
  omega

theorem World.Exact.of_eq (h : w.Exact) (ht : ∀ s, w'.total s = w.total s)
    (hc : w'.b.db.counts = w.b.db.counts) (hl : w'.b.db.lastDbId = w.b.db.lastDbId)
    (hf : w'.fresh = w.fresh) : w'.Exact := by
  refine ⟨?_, ?_⟩
  · rw [hc, hf]
    exact h.tallies.of_eq ht
  · rw [hc, hl]
    exact h.below

theorem World.Exact.fresh (h : w.Exact) {s : MsgStore} (hs : w.fresh = some s) :
    Tallies w.total w.b.db.counts (some s.addr) := by
  have htallies := h.tallies
  rw [hs] at htallies
  exact htallies

/-- What is there after a change was there before. -/
theorem World.Exact.below_of (h : w.Exact) {a : StoreId} {count : StoreId → Option Int}
    (hc : count = incr a w.b.db.counts ∨ count = decr a w.b.db.counts) {s : StoreId}
    (hs : count s ≠ none) : s ≤ w.b.db.lastDbId := by
  refine h.below s fun hnone => hs ?_
  rcases hc with hc | hc
  · rw [hc, incr, Function.update_apply]
    split
    · rename_i hsa
      rw [← hsa, hnone]
      rfl
    · exact hnone
  · rw [hc, decr, Function.update_apply]
    split
    · rename_i hsa
      rw [← hsa, hnone]
      rfl
    · exact hnone

/-- A client changes its references. -/
theorem World.Exact.put (h : w.Exact) (hget : w.b.contexts.get c = some ctx) {m' : Machine}
    {live : StoreId → Prop} (hr : Refers live ctx.refers m'.ctx.refers w.b.db.counts m'.db.counts)
    (hlive : ∀ a, live a → 0 < w.total a) (hl : m'.db.lastDbId = w.b.db.lastDbId) :
    (w.put c m').Exact := by
  refine ⟨h.tallies.change hr hlive (total_put hget m'), fun s hs => ?_⟩
  rw [show (w.put c m').b.db.lastDbId = w.b.db.lastDbId from hl]
  have hs : m'.db.counts s ≠ none := hs
  cases hr with
  | same hn hc =>
    rw [hc] at hs
    exact h.below s hs
  | more a ha hn hc => exact h.below_of (.inl hc) hs
  | less a hn hc => exact h.below_of (.inr hc) hs

/-- References that are held by a function or the retain tree. -/
theorem World.Exact.hold (h : w.Exact) {a : StoreId} (hpos : 0 < w.total a)
    (ht : ∀ s, w'.total s = w.total s + one a s)
    (hdb : w'.b.db = w.b.db.msgStoreRefInc a) (hf : w'.fresh = w.fresh) : w'.Exact := by
  refine ⟨?_, fun s hs => ?_⟩
  · rw [hdb, counts_refInc, hf]
    exact h.tallies.incr hpos ht
  · rw [hdb] at hs ⊢
    exact h.below_of (.inl (counts_refInc a _)) hs

theorem World.Exact.release (h : w.Exact) {a : StoreId} (ht : ∀ s, w.total s = w'.total s + one a s)
    (hdb : w'.b.db = w.b.db.msgStoreRefDec a) (hf : w'.fresh = w.fresh) : w'.Exact := by
  refine ⟨?_, fun s hs => ?_⟩
  · rw [hdb, counts_refDec, hf]
    exact h.tallies.decr ht
  · rw [hdb] at hs ⊢
    rw [lastDbId_refDec]
    exact h.below_of (.inr (counts_refDec a _)) hs

theorem refers_bare (h : ctx.Bare) (s : StoreId) : ctx.refers s = 0 := by
  have hin : ctx.msgsIn.all = [] := h .mdIn
  have hout : ctx.msgsOut.all = [] := h .mdOut
  rw [Context.refers, hin, hout]
  rfl

theorem countP_cons_one (s : MsgStore) (l : List MsgStore) (a : StoreId) :
    (s :: l).countP (·.addr = a) = l.countP (·.addr = a) + one s.addr a := by
  rw [List.countP_cons]
  unfold one
  by_cases ha : a = s.addr
  · rw [if_pos ha, if_pos (decide_eq_true ha.symm)]
  · rw [if_neg ha, if_neg (by simpa using Ne.symm ha)]

/-- A node of the retain tree is given a message, or loses it. -/
theorem retaining_set {b : State} {p : Path} {h : RetainHier} (hnode : b.retains.get p = some h)
    (retained : Option MsgStore) (s : StoreId) :
    { b with retains := b.retains.set p { h with retained } }.retaining s +
        (if h.retained.any (·.addr = s) then 1 else 0) =
      b.retaining s + if retained.any (·.addr = s) then 1 else 0 :=
  Heap.sum_set_old (fun (_ : Path) (h : RetainHier) =>
    if h.retained.any (fun x : MsgStore => x.addr = s) then 1 else 0) { h with retained } hnode

theorem total_setRetained (w : World) {p : Path} {h : RetainHier}
    (hnode : w.b.retains.get p = some h) (db : MosquittoDb) (retained : Option MsgStore) (s : StoreId) :
    ({ w with b := { w.b with db, retains := w.b.retains.set p { h with retained } } } :
        World).total s + (if h.retained.any (·.addr = s) then 1 else 0) =
      w.total s + if retained.any (·.addr = s) then 1 else 0 := by
  have harith : ∀ r x y k i j : Nat, x + i = y + j → r + x + k + i = r + y + k + j := by omega
  exact harith _ _ _ _ _ _ (retaining_set hnode retained s)

theorem any_some_one (s : MsgStore) (a : StoreId) :
    (if (some s).any (·.addr = a) then 1 else 0 : Nat) = one s.addr a := by
  rw [Option.any_some]
  unfold one
  by_cases ha : a = s.addr
  · rw [if_pos ha, if_pos (decide_eq_true ha.symm)]
  · rw [if_neg ha, if_neg (by simpa using Ne.symm ha)]

/-- **A move keeps the counts exact.** -/
theorem exact_move (hw : Wf T.conn w.b) (ht : T.tidy) (h : w.Exact) (hm : Move T w w') :
    w'.Exact := by
  have hsame : ∀ {c : CtxId} {ctx ctx' : Context}, w.b.contexts.get c = some ctx →
      (∀ s, ctx'.refers s = ctx.refers s) → (w.put c ⟨w.b.db, ctx'⟩).Exact := fun hget hn =>
    h.put hget (.same hn rfl : Refers (fun _ => False) _ _ _ _) (fun _ hf => hf.elim) rfl
  cases hm with
  | @aside b' ha =>
    refine h.of_eq (fun s => ?_) (counts_of_refs ha.refs) ha.lastDbId rfl
    unfold World.total State.refers
    rw [show ({ w with b := b' } : World).b.contexts = w.b.contexts from ha.contexts]
    rw [show ({ w with b := b' } : World).b.retaining s = w.b.retaining s from ha.retaining s]
  | @micro c ctx m' R hget hnet hslow hstay hlive hm =>
    refine h.put hget (refers_micro (hw.sound hget) hm) ?_ (lastDbId_micro hm)
    rintro a ⟨s, hs, rfl⟩
    exact pos_of_live (hlive s hs)
  | field hget hf => exact hsame hget (refers_of_msgs hf.all)
  | write hget => exact hsame hget fun _ => rfl
  | @accept ctx hnew hout hquiet hplain =>
    have hnone : w.b.contexts.get w.b.nextContext = none := by
      by_contra hsome
      obtain ⟨ctx', hget⟩ := Option.ne_none_iff_exists'.mp hsome
      exact absurd (hw.allocated hget) (lt_irrefl _)
    refine h.of_eq (fun s => ?_) rfl rfl rfl
    have hsum := Heap.sum_set_new (fun (_ : CtxId) (ctx : Context) => ctx.refers s) ctx hnone
    change _ = _ + ctx.refers s at hsum
    rw [refers_bare hnew.2.2 s, Nat.add_zero] at hsum
    unfold World.total State.refers
    rw [hsum]
    rfl
  | @store s hfresh hs =>
    have hnone : w.b.db.counts s.addr = none := by
      by_contra hsome
      have hle := h.below s.addr hsome
      rw [hs] at hle
      exact Nat.not_succ_le_self _ hle
    have htallies := h.tallies
    rw [hfresh] at htallies
    have hcounts : ∀ a, ((w.b.db.msgStore.set s.addr ⟨s, 0, []⟩).get a).map (·.refCount) =
        Function.update w.b.db.counts s.addr (some 0) a := by
      intro a
      rw [Heap.get_set, Function.update_apply]
      split <;> rfl
    have hnew := htallies.new hnone
    rw [← show _ = Function.update w.b.db.counts s.addr (some 0) from funext hcounts] at hnew
    refine ⟨hnew, fun a ha => ?_⟩
    have ha : ((w.b.db.msgStore.set s.addr ⟨s, 0, []⟩).get a).map (·.refCount) ≠ none := ha
    rw [hcounts a, Function.update_apply] at ha
    split at ha
    · rename_i hsa
      exact (hsa.trans hs).le
    · exact (h.below a ha).trans (Nat.le_succ _)
  | @takeIn c ctx msg qos hget hfresh hid haddr hmode =>
    let m' := placeMsg .mdIn msg qos ⟨w.b.db, ctx⟩
    have hcounts := counts_place .mdIn msg qos ⟨w.b.db, ctx⟩
    refine ⟨?_, fun s hs => h.below_of (.inl hcounts) hs⟩
    show Tallies (w.put c m').total m'.db.counts none
    rw [hcounts]
    refine (h.fresh hfresh).settle fun s => ?_
    have hs := total_put hget m' s
    rw [refers_place] at hs
    change _ + ctx.refers s = _ + (ctx.refers s + one msg.store.addr s) at hs
    omega
  | @holdFresh s hs =>
    refine ⟨?_, fun a ha => h.below_of (.inl (counts_refInc s.addr _)) ha⟩
    show Tallies _ (w.b.db.msgStoreRefInc s.addr).counts none
    rw [counts_refInc]
    refine (h.fresh hs).settle fun a => ?_
    unfold World.total
    rw [countP_cons_one]
    exact (Nat.add_assoc _ _ _).symm
  | hold hs =>
    refine h.hold (pos_of_listed hs) (fun a => ?_) rfl rfl
    unfold World.total
    rw [countP_cons_one]
    exact (Nat.add_assoc _ _ _).symm
  | @release s hs =>
    refine h.release (fun a => ?_) rfl rfl
    have hperm := (List.perm_cons_erase hs).countP_eq (·.addr = a)
    rw [countP_cons_one] at hperm
    unfold World.total
    rw [hperm]
    exact (Nat.add_assoc _ _ _).symm
  | @retain p hier s hnode hnone hs =>
    refine h.hold (pos_of_live (.inl hs)) (fun a => ?_) rfl rfl
    have hset := total_setRetained w hnode (w.b.db.msgStoreRefInc s.addr) (some s) a
    rw [hnone, any_some_one] at hset
    exact hset
  | @unretain p hier s hnode hs =>
    refine h.release (fun a => ?_) rfl rfl
    have hset := total_setRetained w hnode (w.b.db.msgStoreRefDec s.addr) none a
    rw [hs, any_some_one] at hset
    exact hset.symm
  | @drop c ctx dir msg md hget hperm =>
    have hrefers : ∀ s, ctx.refers s =
        ((dropRef dir msg ⟨w.b.db, ctx⟩).ctx.setMsgs dir md).refers s + one msg.store.addr s := by
      intro s
      rw [refers_setMsgs hperm s]
      cases dir <;> rfl
    exact h.put hget
      (.less msg.store.addr hrefers (counts_refDec _ _) : Refers (fun _ => False) _ _ _ _)
      (fun _ hf => hf.elim) (lastDbId_refDec _ _)
  | @regroup c ctx dir md hget hperm => exact hsame hget (refers_perm hperm)
  | @takeOver found c foundCtx ctx hne hfound hget hbare hconn hleave =>
    let left : Machine := ⟨w.b.db, { foundCtx with msgsIn := .empty 0, msgsOut := .empty 0 }⟩
    let taken : Machine := ⟨w.b.db, { ctx with msgsIn := foundCtx.msgsIn.takeOver ctx.msgsIn
                                               msgsOut := foundCtx.msgsOut.takeOver ctx.msgsOut }⟩
    refine h.of_eq (fun s => ?_) rfl rfl rfl
    have hleft := total_put hfound left s
    have htaken := total_put (w := w.put found left)
      ((Heap.get_set_ne _ _ hne.symm).trans hget) taken s
    rw [@refers_bare left.ctx (fun d => by cases d <;> rfl) s] at hleft
    rw [refers_bare hbare s, show taken.ctx.refers s = foundCtx.refers s from rfl] at htaken
    exact htaken.trans hleft
  | @free c ctx hget hbare =>
    refine h.of_eq (fun s => ?_) rfl rfl rfl
    have hsum := Heap.sum_del w.b.contexts (fun (_ : CtxId) (ctx : Context) => ctx.refers s) c
    rw [hget] at hsum
    change _ + ctx.refers s = _ at hsum
    rw [refers_bare (hbare ht) s, Nat.add_zero] at hsum
    unfold World.total State.refers
    rw [hsum]
    rfl

theorem exact_moves (hw : Wf T.conn w.b) (ht : T.tidy) (h : w.Exact) (hm : Moves T w w') :
    w'.Exact := by
  induction hm with
  | refl => exact h
  | tail hms hm ih => exact exact_move (wf_moves hw hms) ht ih hm

end Exact

/-! ## Runs -/

section Runs

variable {env : Env} {config : Config} {clock : Nat → Reading} {slow : State → CtxId → Prop}
  {b : State}

theorem exact_start (config : Config) (clock : Nat → Reading) :
    (State.dbOpen config clock).still.Exact := by
  have hretaining : ∀ s, (State.dbOpen config clock).retaining s = 0 := by
    intro s
    rfl
  refine ⟨⟨fun s => ?_, nofun⟩, fun s hs => absurd rfl hs⟩
  have htotal : (State.dbOpen config clock).still.total s = 0 := by
    unfold World.total
    rw [show (State.dbOpen config clock).still.b.retaining s = 0 from hretaining s]
    rfl
  rw [htotal]
  rfl

theorem exact_lawfully (h : Lawfully env config clock slow True b) : b.still.Exact := by
  refine h.keep (I := fun b => b.still.Exact) (exact_start config clock)
    fun {b e} hw hexact hgo => ?_
  have hw' : Wf e.connecting b := hw.weaken fun _ h => h.elim
  obtain ⟨leaving, w₁, hfirst, -, hsecond⟩ := hgo
  have hw₁ := wf_moves (T := ⟨env, slow b, e.connecting, leaving, True⟩) hw' hfirst
  exact exact_moves (T := ⟨env, slow b, e.connecting, fun _ => False, True⟩) hw₁ trivial
    (exact_moves (T := ⟨env, slow b, e.connecting, leaving, True⟩) hw' trivial hexact hfirst) hsecond

/-- **Reference counts are exact**: in every run in which no client is freed that has messages
in storage, an entry counts the messages of clients and the nodes of the retain tree that refer
to it, and it is there if and only if there are any. -/
theorem ref_counts_exact (h : Lawfully env config clock (fun _ _ => True) True b) (s : StoreId) :
    (∀ e, b.db.msgStore.get s = some e → e.refCount = (b.refers s + b.retaining s : Nat)) ∧
    (b.db.msgStore.get s = none ↔ b.refers s + b.retaining s = 0) := by
  have htallies : Tallies b.still.total b.db.counts none := (exact_lawfully h).tallies
  have htotal : b.still.total s = b.refers s + b.retaining s := rfl
  refine ⟨fun e he => ?_, ?_⟩
  · have hcount := htallies.count s
    rw [htotal, MosquittoDb.counts, he, Option.map_some] at hcount
    split at hcount
    · exact Option.some.inj hcount
    · cases hcount
  · have hnone := htallies.none_iff s
    rw [htotal, MosquittoDb.counts, Option.map_eq_none_iff] at hnone
    exact hnone

theorem lawfully_run {es : List Event} (h : Lawfully env config clock (fun _ _ => True) True b)
    (hready : allReady env es b = true) (hes : ∀ e ∈ es, e ≠ .freeDisused) :
    Lawfully env config clock (fun _ _ => True) True (es.foldl (fun b e => b.exec env e) b) := by
  induction es generalizing b with
  | nil => exact h
  | cons e es ih =>
    rw [allReady, Bool.and_eq_true] at hready
    rw [List.forall_mem_cons] at hes
    refine ih (h.next e ⟨hready.1, fun _ _ _ _ => .inl trivial, fun _ he => absurd he hes.1⟩)
      hready.2 hes.2

/-- The publisher is freed, and its message is in flight. -/
theorem ref_counts_exact_freed :
    let es := twoClients ++ [.publish 1 (publishOf (ascii "t") [] 1), .disconnect 1 none]
    let b := (after es).exec .granting .freeDisused
    (b.contexts.get 1).isNone = true ∧ ∃ e, b.db.msgStore.get 1 = some e ∧
      e.refCount = (b.refers 1 + b.retaining 1 : Nat) ∧ b.refers 1 = 1 := by
  intro es b
  have hrun : Lawfully .granting Config.init (fun t => ⟨1000 + t, 0, 0⟩) (fun _ _ => True) True
      (after es) := @lawfully_run _ _ _ _ es .start (by decide +kernel) (by simp [es, twoClients])
  have hempty : (after es).llForFree.all (fun c => ((after es).contexts.get c).all fun ctx =>
      decide (ctx.msgsIn.storage = [] ∧ ctx.msgsOut.storage = [])) = true := by decide +kernel
  have hfree : Event.freeDisused.Lawful (fun _ => True) True (after es) := by
    refine ⟨rfl, fun _ _ _ _ => .inl trivial, fun _ _ c hc ctx hget d => ?_⟩
    have hctx := List.all_eq_true.mp hempty c hc
    rw [hget, Option.all_some, decide_eq_true_eq] at hctx
    cases d
    · exact hctx.1
    · exact hctx.2
  have hb : Lawfully .granting Config.init (fun t => ⟨1000 + t, 0, 0⟩) (fun _ _ => True) True b :=
    hrun.next .freeDisused hfree
  have hthere : ((b.db.msgStore.get 1).isSome && (b.contexts.get 1).isNone && b.refers 1 == 1) =
      true := by decide +kernel
  clear_value b
  rw [Bool.and_eq_true, Bool.and_eq_true, beq_iff_eq] at hthere
  obtain ⟨e, he⟩ := Option.isSome_iff_exists.mp hthere.1.1
  exact ⟨hthere.1.2, e, he, (ref_counts_exact hb 1).1 e he, hthere.2⟩

/-- A client in slow mode is freed, and the message in its storage stays for ever. -/
theorem stored_message_leaks : ¬ ∀ env config clock b, Reaches env config clock b → ∀ s,
    (∀ e, b.db.msgStore.get s = some e → e.refCount = (b.refers s + b.retaining s : Nat)) ∧
    (b.db.msgStore.get s = none ↔ b.refers s + b.retaining s = 0) := by
  intro h
  let es := twoClients ++
    [.publish 1 (publishOf (ascii "latency") [] 1), .ack 0 .puback firstPuback,
    .publish 1 (publishOf (ascii "t") (List.replicate 100 0) 2), .disconnect 0 none, .freeDisused]
  have hrun : Reaches .granting Config.init (fun t => ⟨1000 + t, 0, 0⟩) (after es) :=
    @Reaches.run _ _ _ _ es .start (by decide +kernel)
  have hleak : (((after es).db.msgStore.get 2).isSome &&
      (after es).refers 2 + (after es).retaining 2 == 0) = true := by decide +kernel
  rw [Bool.and_eq_true, beq_iff_eq] at hleak
  have hnone := ((h _ _ _ (after es) hrun 2).2.mpr hleak.2)
  rw [hnone] at hleak
  cases hleak.1

end Runs

end AdaptiveMqtt.Broker
