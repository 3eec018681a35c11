import AdaptiveMqtt.Broker.Incoming
import AdaptiveMqtt.Broker.Session
import AdaptiveMqtt.Db.Flow
import AdaptiveMqtt.Db.Outward

/-!
# Refilling the window of incoming messages

`db__message_release_incoming` counts the messages in flight while it looks for the one to
release, and counts that one too; the queue is then moved up while the count is below
`inflight_maximum`. `db__message_delete_outgoing`, which does the same for outgoing messages,
takes the removed message out of its count. So one place of the window stays empty, unless the
queue fits into the others.
-/

namespace AdaptiveMqtt.Broker

open Lib Topic AdaptiveMqtt.Sub Db

/-- The PUBREC packets a client was sent: mid and reason code. -/
def pubrecs (ctx : Context) : List (UInt16 × UInt8) :=
  ctx.replies.filterMap fun
    | .pubrec mid reasonCode => some (mid, reasonCode)
    | _ => none

/-- A queued message after `db__message_release_incoming` moved it up. -/
def promoted (now : Int) (msg : ClientMsg) : ClientMsg :=
  { msg with timestamp := now, state := .waitForPubrel }

/-- The message with this mid is gone, and the first `n` of the queue are in flight behind the
others, each answered with a PUBREC. -/
structure Refilled (now : Int) (mid : UInt16) (n : Nat) (ctx ctx' : Context) : Prop where
  queued : ctx'.msgsIn.queued = ctx.msgsIn.queued.drop n
  inflight : ctx'.msgsIn.inflight = ctx.msgsIn.inflight.filter (·.mid ≠ mid) ++
    (ctx.msgsIn.queued.take n).map (promoted now)
  pubrecs : pubrecs ctx' = pubrecs ctx ++ (ctx.msgsIn.queued.take n).map fun msg => (msg.mid, 0)

/-! ## Passing the message on -/

theorem pubrecs_of_acks {ctx ctx' : Context} (h : ctx'.acks = ctx.acks) :
    pubrecs ctx' = pubrecs ctx :=
  filterMap_of_acks (fun _ => rfl) h

/-- Every client has the incoming messages it had, and the time stands still. -/
def Undisturbed (b b' : State) : Prop :=
  (∀ c, (b'.contexts.get c).map Context.incoming = (b.contexts.get c).map Context.incoming) ∧
    b'.db.nowS = b.db.nowS

section Undisturbed

variable {b b' b'' : State}

theorem Undisturbed.refl (b : State) : Undisturbed b b := ⟨fun _ => rfl, rfl⟩

theorem Undisturbed.trans (h : Undisturbed b b') (h' : Undisturbed b' b'') : Undisturbed b b'' :=
  ⟨fun c => (h'.1 c).trans (h.1 c), h'.2.trans h.2⟩

/-- A client was sent the same answers. -/
theorem Undisturbed.replies {α : Type} {f : Command → Option α} (hf : ∀ mid, f (.pubrel mid) = none)
    (h : Undisturbed b b') (c : CtxId) :
    (b'.contexts.get c).map (·.replies.filterMap f) =
      (b.contexts.get c).map (·.replies.filterMap f) := by
  have hc := h.1 c
  cases hget : b.contexts.get c with
  | none =>
    rw [hget, Option.map_none, Option.map_eq_none_iff] at hc
    rw [hc]
  | some ctx =>
    rw [hget, Option.map_some, Option.map_eq_some_iff] at hc
    obtain ⟨ctx', hget', hin⟩ := hc
    rw [hget', Option.map_some, Option.map_some, filterMap_of_acks hf (Prod.mk.inj hin).2]

/-- A message for a subscriber, as `subs__send` and `retain__process` insert it. -/
theorem undisturbed_insert (net : Net) (c : CtxId) (qos : Qos) (retain : Bool) (stored : MsgStore)
    (properties : List Property) (update : Bool) (b : State) :
    Undisturbed b (b.onClient c fun m => messageInsert net (midFor qos m).1 .mdOut qos retain stored
      properties update (midFor qos m).2).2 := by
  unfold State.onClient
  cases hget : b.contexts.get c with
  | none => exact .refl b
  | some ctx =>
    obtain ⟨lastMid, hmid⟩ := midFor_eq qos ⟨b.db, ctx⟩
    simp only [hmid]
    obtain ⟨hin, hnow⟩ := @incoming_messageInsert net (midFor qos ⟨b.db, ctx⟩).1 qos retain stored
      properties update ⟨b.db, { ctx with lastMid }⟩
    refine ⟨fun d => ?_, hnow⟩
    rw [Heap.get_set]
    split
    · rename_i hd
      rw [hd, hget, Option.map_some, Option.map_some, hin]
      rfl
    · rfl

theorem undisturbed_subsSend (env : Env) (topic : Bytes) (qos : Qos) (retain : Bool)
    (stored : MsgStore) (leaf : SubLeaf) (b : State) :
    Undisturbed b (subsSend env topic qos retain stored leaf b).2 := by
  unfold subsSend
  split
  · exact .refl b
  · simp only
    split
    · exact .refl b
    · split
      · exact undisturbed_insert _ _ _ _ _ _ _ b
      · exact .refl b

theorem undisturbed_setRetained (node : Path) (stored : Option MsgStore) (b : State) :
    Undisturbed b (setRetained node stored b) := by
  unfold setRetained
  split
  · exact .refl b
  · rename_i h _
    refine ⟨fun _ => rfl, ?_⟩
    have hold : (h.retained.elim b.db fun old => b.db.msgStoreRefDec old.addr).nowS = b.db.nowS := by
      cases h.retained with
      | none => rfl
      | some old => exact msgStoreRefDec_nowS old.addr b.db
    cases stored with
    | none => exact hold
    | some s => exact hold

theorem undisturbed_retainStore (stored : MsgStore) (splitTopics : List Bytes) (b : State) :
    Undisturbed b (retainStore stored splitTopics b) := by
  unfold retainStore
  exact undisturbed_setRetained _ _ { b with
    retains := retainBranches splitTopics [splitTopics.headD []]
      (retainAddHierEntry b.retains [splitTopics.headD []]) }

theorem undisturbed_subMessagesQueue (env : Env) (sourceId topic : Bytes) (qos : Qos)
    (retain : Bool) (stored : MsgStore) (b : State) :
    Undisturbed b (subMessagesQueue env sourceId topic qos retain stored b).2 := by
  unfold subMessagesQueue
  simp only
  split
  · exact ⟨fun _ => rfl, rfl⟩
  · rename_i splitTopics share htok
    have hsend : Undisturbed b (subSend env sourceId topic qos retain stored splitTopics
        { b with passed := b.passed ++ [stored], db := b.db.msgStoreRefInc stored.addr }).2 := by
      refine keeps_searchRoot (P := Undisturbed b) (fun _ _ leaf b' hb => ?_) _ _
        ⟨fun _ => rfl, rfl⟩
      exact hb.trans (undisturbed_subsSend env topic qos retain stored leaf b')
    have hrelease : ∀ {b' : State}, Undisturbed b b' →
        Undisturbed b { b' with db := b'.db.msgStoreRefDec stored.addr } := fun h =>
      ⟨h.1, (msgStoreRefDec_nowS stored.addr _).trans h.2⟩
    split
    · exact hrelease (hsend.trans (undisturbed_retainStore stored splitTopics _))
    · exact hrelease hsend

end Undisturbed

/-! ## Moving the queue up -/

section Queue

variable {m : Machine} {tail : ClientMsg} {rest : List ClientMsg}

/-- One turn of the loop over the queue. -/
def releaseOne (net : Net) (tail : ClientMsg) (m : Machine) : Machine :=
  let now := m.db.nowS
  let m := updateIncoming tail.addr (fun msg => { msg with timestamp := now }) m
  let m := (sendPubrec net tail.mid 0 m).2
  (updateIncoming tail.addr (fun msg => { msg with state := .waitForPubrel }) m).onMsgs .mdIn
    (·.dequeueFirst)

theorem releaseOne_spec (net : Net) (hq : m.ctx.msgsIn.queued = tail :: rest)
    (hnd : ((m.ctx.msgsIn.inflight ++ tail :: rest).map (·.addr)).Nodup) :
    (releaseOne net tail m).ctx.msgsIn.queued = rest ∧
    (releaseOne net tail m).ctx.msgsIn.inflight =
      m.ctx.msgsIn.inflight ++ [promoted m.db.nowS tail] ∧
    (releaseOne net tail m).ctx.msgsIn.inflightMaximum = m.ctx.msgsIn.inflightMaximum ∧
    pubrecs (releaseOne net tail m).ctx = pubrecs m.ctx ++ [(tail.mid, 0)] ∧
    (releaseOne net tail m).db.nowS = m.db.nowS := by
  rw [List.map_append, List.nodup_append] at hnd
  obtain ⟨-, hqueue, hdisjoint⟩ := hnd
  have hfly : tail.addr ∉ m.ctx.msgsIn.inflight.map (·.addr) := fun h =>
    hdisjoint _ h _ List.mem_cons_self rfl
  let now := m.db.nowS
  let md : MsgData := { m.ctx.msgsIn with queued := promoted now tail :: rest }
  -- both writes through the pointer find the head of the queue
  have hwrite : (updateIncoming tail.addr (fun msg => { msg with state := .waitForPubrel })
      (sendPubrec net tail.mid 0 (updateIncoming tail.addr
        (fun msg => { msg with timestamp := now }) m)).2).ctx.msgsIn = md := by
    have hqueue' : ((({ tail with timestamp := now } : ClientMsg) :: rest).map (·.addr)).Nodup :=
      hqueue
    show ({ m.ctx.msgsIn with
      inflight := updateAt tail.addr _ (updateAt tail.addr _ m.ctx.msgsIn.inflight)
      queued := updateAt tail.addr _ (updateAt tail.addr _ m.ctx.msgsIn.queued) } : MsgData) = md
    rw [updateAt_of_notMem hfly, updateAt_of_notMem hfly, hq, updateAt_head hqueue]
    have hhead := updateAt_head (f := fun msg => { msg with state := .waitForPubrel }) hqueue'
    rw [show ({ tail with timestamp := now } : ClientMsg).addr = tail.addr from rfl] at hhead
    rw [hhead]
    rfl
  have hmd : (releaseOne net tail m).ctx.msgsIn = md.dequeueFirst := by
    show MsgData.dequeueFirst (updateIncoming _ _ _).ctx.msgsIn = _
    rw [hwrite]
  rw [hmd]
  have hrec : pubrecs (releaseOne net tail m).ctx = pubrecs m.ctx ++ [(tail.mid, 0)] := by
    show List.filterMap _ (m.ctx.replies ++ [Command.pubrec tail.mid 0]) = _
    rw [List.filterMap_append]
    rfl
  unfold MsgData.dequeueFirst MsgData.decrementQuota
  simp only [md]
  split <;> exact ⟨rfl, rfl, rfl, hrec, rfl⟩

theorem releaseQueuedLoop_spec (net : Net) (l : List ClientMsg) :
    ∀ (i : Nat) (m : Machine), 0 < m.ctx.msgsIn.inflightMaximum → (∀ msg ∈ l, msg.qos = .q2) →
      m.ctx.msgsIn.queued = l → ((m.ctx.msgsIn.inflight ++ l).map (·.addr)).Nodup →
      ∀ n, n = min l.length (m.ctx.msgsIn.inflightMaximum - i) →
        (releaseQueuedLoop net l i m).ctx.msgsIn.queued = l.drop n ∧
        (releaseQueuedLoop net l i m).ctx.msgsIn.inflight =
          m.ctx.msgsIn.inflight ++ (l.take n).map (promoted m.db.nowS) ∧
        pubrecs (releaseQueuedLoop net l i m).ctx =
          pubrecs m.ctx ++ (l.take n).map fun msg => (msg.mid, 0) := by
  induction l with
  | nil =>
    intro i m _ _ hq _ n hn
    simp [releaseQueuedLoop, hq]
  | cons tail rest ih =>
    intro i m hmax hq2 hq hnd n hn
    unfold releaseQueuedLoop
    by_cases hfull : i ≥ m.ctx.msgsIn.inflightMaximum
    · have hn0 : n = 0 := by omega
      rw [if_pos ⟨by omega, hfull⟩, hn0]
      simp [hq]
    · rw [if_neg fun h => hfull h.2]
      simp only [if_pos (hq2 tail List.mem_cons_self)]
      obtain ⟨hqueued, hfly, hmax', hrec, hnow⟩ := releaseOne_spec net hq hnd
      have hpromoted : (promoted m.db.nowS tail).addr = tail.addr := rfl
      obtain ⟨k, hk⟩ : ∃ k, n = k + 1 := ⟨n - 1, by rw [List.length_cons] at hn; omega⟩
      have hih := ih (i + 1) (releaseOne net tail m) (by rw [hmax']; exact hmax)
        (fun msg hmsg => hq2 msg (List.mem_cons_of_mem _ hmsg)) hqueued
        (by
          rw [hfly]
          simpa [hpromoted] using hnd)
        k (by rw [hmax']; rw [List.length_cons] at hn; omega)
      rw [hfly, hrec, hnow] at hih
      rw [hk, List.drop_succ_cons, List.take_succ_cons, List.map_cons, List.map_cons]
      rw [List.append_assoc, List.append_assoc] at hih
      exact hih

end Queue

/-! ## Releasing -/

section Release

variable {env : Env} {c : CtxId} {mid : UInt16}

theorem releaseLoop_skip {l : List ClientMsg} (h : ∀ a ∈ l, a.mid ≠ mid) (l' : List ClientMsg)
    (deleted : Bool) (b : State) :
    releaseLoop env c mid (l ++ l') deleted b = releaseLoop env c mid l' deleted b := by
  induction l with
  | nil => rfl
  | cons a l ih =>
    rw [List.cons_append, releaseLoop, if_pos (h a List.mem_cons_self)]
    exact ih fun x hx => h x (List.mem_cons_of_mem _ hx)

theorem releaseLoop_none {l : List ClientMsg} (h : ∀ a ∈ l, a.mid ≠ mid) (deleted : Bool)
    (b : State) : releaseLoop env c mid l deleted b = (.ok deleted, b) := by
  have := @releaseLoop_skip env c mid l h [] deleted b
  rwa [List.append_nil] at this

theorem releaseLoop_error {l : List ClientMsg} {deleted : Bool} {b b' : State} {rc : Rc}
    (h : releaseLoop env c mid l deleted b = (.error rc, b')) : rc ≠ Rc.success := by
  induction l generalizing deleted b with
  | nil => cases h
  | cons tail rest ih =>
    unfold releaseLoop at h
    split at h
    · exact ih h
    · split at h
      · cases h
        decide
      · simp only at h
        split at h
        · exact ih h
        · cases h
          decide

/-- What a release that succeeds did before the queue is moved up. -/
theorem releaseLoop_released {b b' : State} {ctx : Context} {deleted : Bool}
    (hget : b.contexts.get c = some ctx) (hmids : (ctx.msgsIn.inflight.map (·.mid)).Nodup)
    (h : releaseLoop env c mid ctx.msgsIn.inflight false b = (.ok deleted, b'))
    (hdeleted : deleted = true) :
    ∃ tail ∈ ctx.msgsIn.inflight, tail.mid = mid ∧ ∃ ctx', b'.contexts.get c = some ctx' ∧
      ctx'.msgsIn = ctx.msgsIn.remove tail ∧ pubrecs ctx' = pubrecs ctx ∧
      b'.db.nowS = b.db.nowS := by
  subst hdeleted
  by_cases hfound : ∃ tail ∈ ctx.msgsIn.inflight, tail.mid = mid
  · obtain ⟨tail, htail, hmid⟩ := hfound
    obtain ⟨l₁, l₂, hl⟩ := List.append_of_mem htail
    rw [hl, List.map_append, List.map_cons, List.nodup_middle, List.nodup_cons, ← List.map_append]
      at hmids
    have hother : ∀ a ∈ l₁ ++ l₂, a.mid ≠ mid := fun a ha e =>
      hmids.1 (List.mem_map.mpr ⟨a, ha, e.trans hmid.symm⟩)
    refine ⟨tail, htail, hmid, ?_⟩
    rw [hl, releaseLoop_skip fun a ha => hother a (List.mem_append_left _ ha), releaseLoop,
      if_neg (not_not.mpr hmid)] at h
    split at h
    · cases h
    · simp only at h
      split at h
      · rw [releaseLoop_none fun a ha => hother a (List.mem_append_right _ ha)] at h
        obtain ⟨hin, hnow⟩ := undisturbed_subMessagesQueue env tail.store.sourceId tail.store.topic .q2
          tail.retain tail.store b
        obtain ⟨ctx₁, hget₁, hctx₁⟩ : ∃ ctx₁, (subMessagesQueue env tail.store.sourceId
            tail.store.topic .q2 tail.retain tail.store b).2.contexts.get c = some ctx₁ ∧
            ctx₁.incoming = ctx.incoming := by
          have hc := hin c
          rw [hget, Option.map_some, Option.map_eq_some_iff] at hc
          exact hc
        have hb' := (Prod.mk.inj h).2
        unfold State.onClient at hb'
        rw [hget₁] at hb'
        subst hb'
        refine ⟨_, Heap.get_set_self _ _ _, ?_, pubrecs_of_acks (Prod.mk.inj hctx₁).2,
          (msgStoreRefDec_nowS _ _).trans hnow⟩
        show ctx₁.msgsIn.remove tail = _
        rw [(Prod.mk.inj hctx₁).1]
      · cases h
  · rw [releaseLoop_none fun a ha e => hfound ⟨a, ha, e⟩] at h
    cases h

/-- With distinct mids and addresses, the message with a mid is the one at its address. -/
theorem eraseP_eq_filter {l : List ClientMsg} {tail : ClientMsg} (htail : tail ∈ l)
    (hmids : (l.map (·.mid)).Nodup) (haddrs : (l.map (·.addr)).Nodup) :
    l.eraseP (·.addr = tail.addr) = l.filter (·.mid ≠ tail.mid) := by
  obtain ⟨l₁, l₂, rfl⟩ := List.append_of_mem htail
  rw [List.map_append, List.map_cons, List.nodup_middle, List.nodup_cons, ← List.map_append]
    at hmids haddrs
  have hmid : ∀ a ∈ l₁ ++ l₂, a.mid ≠ tail.mid := fun a ha e =>
    hmids.1 (List.mem_map.mpr ⟨a, ha, e⟩)
  have haddr : ∀ a ∈ l₁, ¬ decide (a.addr = tail.addr) = true := fun a ha e =>
    haddrs.1 (List.mem_map.mpr ⟨a, List.mem_append_left _ ha, of_decide_eq_true e⟩)
  rw [List.eraseP_append_right _ haddr, List.eraseP_cons_of_pos (by simp), List.filter_append,
    List.filter_cons_of_neg (by simp), ← List.filter_append]
  exact (List.filter_eq_self.mpr fun a ha => by simpa using hmid a ha).symm

/-- What a release does that succeeds: one message fewer moves up than there are places. -/
theorem release_refills {b : State} {ctx : Context} (hget : b.contexts.get c = some ctx)
    (haddrs : (ctx.msgsIn.all.map (·.addr)).Nodup)
    (hmids : ((ctx.msgsIn.inflight ++ ctx.msgsIn.queued).map (·.mid)).Nodup)
    (hq2 : ∀ msg ∈ ctx.msgsIn.all, msg.qos = .q2) (hmax : 0 < ctx.msgsIn.inflightMaximum)
    (hrc : (messageReleaseIncoming env c mid b).1 = Rc.success) :
    0 < ctx.msgsIn.inflight.length ∧
    ∃ ctx', (messageReleaseIncoming env c mid b).2.contexts.get c = some ctx' ∧
      Refilled b.db.nowS mid (min ctx.msgsIn.queued.length
        (ctx.msgsIn.inflightMaximum - ctx.msgsIn.inflight.length)) ctx ctx' := by
  have haddrs' : ((ctx.msgsIn.inflight ++ ctx.msgsIn.queued).map (·.addr)).Nodup := by
    rw [MsgData.all, List.map_append] at haddrs
    exact (List.nodup_append.mp haddrs).1
  have hmids' : (ctx.msgsIn.inflight.map (·.mid)).Nodup := by
    rw [List.map_append] at hmids
    exact (List.nodup_append.mp hmids).1
  unfold messageReleaseIncoming at hrc ⊢
  rw [hget] at hrc ⊢
  simp only at hrc ⊢
  cases hloop : releaseLoop env c mid ctx.msgsIn.inflight false b with
  | mk r b₁ =>
    rw [hloop] at hrc
    cases r with
    | error rc => exact absurd hrc (releaseLoop_error hloop)
    | ok deleted =>
      simp only at hrc ⊢
      have hdeleted : deleted = true := by
        by_contra hd
        rw [if_neg hd] at hrc
        exact absurd hrc (by decide)
      obtain ⟨tail, htail, rfl, ctx₁, hget₁, hmsgs, hrec, hnow⟩ :=
        releaseLoop_released hget hmids' hloop hdeleted
      refine ⟨List.length_pos_of_mem htail, _, onClient_get hget₁ _, ?_⟩
      have hin : ctx₁.msgsIn.inflight = ctx.msgsIn.inflight.filter (·.mid ≠ tail.mid) := by
        rw [hmsgs, MsgData.remove_inflight]
        rw [List.map_append] at haddrs'
        exact eraseP_eq_filter htail hmids' (List.nodup_append.mp haddrs').1
      have hqueue : ctx₁.msgsIn.queued = ctx.msgsIn.queued ∧
          ctx₁.msgsIn.inflightMaximum = ctx.msgsIn.inflightMaximum := by
        rw [hmsgs]
        unfold MsgData.remove
        simp only
        split <;> exact ⟨rfl, rfl⟩
      have hnd : ((ctx₁.msgsIn.inflight ++ ctx₁.msgsIn.queued).map (·.addr)).Nodup := by
        rw [hin, hqueue.1]
        exact haddrs'.sublist (((List.filter_sublist).append_right _).map _)
      obtain ⟨hqueued, hfly, hrec'⟩ := releaseQueuedLoop_spec env.net ctx₁.msgsIn.queued
        ctx.msgsIn.inflight.length ⟨b₁.db, ctx₁⟩ (by rw [hqueue.2]; exact hmax)
        (fun msg hmsg => hq2 msg (MsgData.mem_all.mpr (.inr (.inl (hqueue.1 ▸ hmsg))))) rfl hnd _ rfl
      show Refilled _ _ _ _
        (releaseQueuedLoop env.net ctx₁.msgsIn.queued _ ⟨b₁.db, ctx₁⟩).ctx
      simp only [hqueue.1, hqueue.2, hin, hrec, hnow] at hqueued hfly hrec' ⊢
      exact ⟨hqueued, hfly, hrec'⟩

/-- **When a release refills the window**: if and only if the queue fits into the places that
were free before. -/
theorem release_refills_iff {b : State} {ctx : Context} (hget : b.contexts.get c = some ctx)
    (haddrs : (ctx.msgsIn.all.map (·.addr)).Nodup)
    (hmids : ((ctx.msgsIn.inflight ++ ctx.msgsIn.queued).map (·.mid)).Nodup)
    (hq2 : ∀ msg ∈ ctx.msgsIn.all, msg.qos = .q2) (hmax : 0 < ctx.msgsIn.inflightMaximum)
    (hk : ctx.msgsIn.inflight.length ≤ ctx.msgsIn.inflightMaximum)
    (hrc : (messageReleaseIncoming env c mid b).1 = Rc.success) :
    (∃ ctx', (messageReleaseIncoming env c mid b).2.contexts.get c = some ctx' ∧
      Refilled b.db.nowS mid (min ctx.msgsIn.queued.length
        (ctx.msgsIn.inflightMaximum - (ctx.msgsIn.inflight.length - 1))) ctx ctx') ↔
    ctx.msgsIn.inflight.length + ctx.msgsIn.queued.length ≤ ctx.msgsIn.inflightMaximum := by
  obtain ⟨hpos, ctx₁, hget₁, hfill⟩ := release_refills hget haddrs hmids hq2 hmax hrc
  constructor
  · rintro ⟨ctx', hget', hfill'⟩
    cases hget₁.symm.trans hget'
    -- the two lengths of the queue agree
    have hlen := congrArg List.length (hfill.queued.symm.trans hfill'.queued)
    rw [List.length_drop, List.length_drop] at hlen
    omega
  · intro hfit
    refine ⟨ctx₁, hget₁, ?_⟩
    rw [Nat.min_eq_left (by omega)] at hfill ⊢
    exact hfill

end Release

/-! ## A queue of one -/

/-- A message of QoS 2 from the client `"c"`. -/
def arrival (addr : Nat) (mid : UInt16) (state : MsgState) : ClientMsg :=
  { addr
    store := { addr, origin := .moClient, sourceId := ascii "c", sourceMid := mid
               topic := ascii "t", payload := [], properties := [], messageExpiryTime := 0
               qos := .q2, retain := false }
    properties := [], timestamp := 0, mid, qos := .q2, retain := false, direction := .mdIn, state
    dup := false, storageTime := 0 }

/-- A client with message 1 in flight, message 2 behind it in the queue, and this window. -/
def oneQueued (inflightMaximum : Nat) : Context :=
  { Context.init Config.init (some 4) with
    id := some (ascii "c"), state := .active, protocol := .mqtt311
    msgsIn := { MsgData.empty inflightMaximum with
      inflight := [arrival 0 1 .waitForPubrel], queued := [arrival 1 2 .queued]
      msgCount := 2, msgCount12 := 2 } }

/-- The broker with this client and its two messages. -/
def oneQueuedBroker (inflightMaximum : Nat) : State :=
  let b := State.dbOpen Config.init fun _ => ⟨0, 0, 0⟩
  { b with
    db := { b.db with
      msgStore := ((∅ : Heap StoreId StoreEntry).set 0 ⟨(arrival 0 1 .queued).store, 1, []⟩).set 1
        ⟨(arrival 1 2 .queued).store, 1, []⟩
      nextMsg := 2, lastDbId := 1 }
    contexts := b.contexts.set 0 (oneQueued inflightMaximum), nextContext := 1 }

theorem release_refills_two :
    (messageReleaseIncoming .granting 0 1 (oneQueuedBroker 2)).1 = Rc.success ∧
      ∃ ctx', (messageReleaseIncoming .granting 0 1 (oneQueuedBroker 2)).2.contexts.get 0 = some ctx' ∧
        Refilled 0 1 1 (oneQueued 2) ctx' := by
  have hrc : (messageReleaseIncoming .granting 0 1 (oneQueuedBroker 2)).1 = Rc.success := by
    decide +kernel
  refine ⟨hrc, ?_⟩
  exact (@release_refills_iff .granting 0 1 (oneQueuedBroker 2) (oneQueued 2)
    rfl (by decide) (by decide) (by decide) (by decide) (by decide) hrc).mpr (by decide)

/-- **A full window is not refilled**: with a window of one, the queued message stays where it
is. -/
theorem full_window_not_refilled :
    ∃ ctx', (messageReleaseIncoming .granting 0 1 (oneQueuedBroker 1)).2.contexts.get 0 = some ctx' ∧
      (messageReleaseIncoming .granting 0 1 (oneQueuedBroker 1)).1 = Rc.success ∧
      ctx'.msgsIn.inflight = [] ∧ ctx'.msgsIn.queued = [arrival 1 2 .queued] ∧
      ¬ Refilled 0 1 (min 1 (1 - (1 - 1))) (oneQueued 1) ctx' := by
  refine ⟨((messageReleaseIncoming .granting 0 1 (oneQueuedBroker 1)).2.contexts.get 0).getD
    (oneQueued 1), ?_, ?_, ?_, ?_, fun h => ?_⟩
  · decide +kernel
  · decide +kernel
  · decide +kernel
  · decide +kernel
  · have hq := h.queued
    exact absurd hq (by decide +kernel)

end AdaptiveMqtt.Broker
