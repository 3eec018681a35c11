import AdaptiveMqtt.Broker.Session

/-!
# What the broker can do

Every function of the broker is a sequence of small moves: a client makes a small step of
`Micro`, fields of a client change, a message is stored, referred to, released, retained,
dropped or regrouped, a session is taken over, a client comes or goes. The invariants of
reference counts, packets and modes are proved for the moves.

While a function runs it may hold references of its own (`World.held`: those of
`sub__messages_queue`) or a stored message that nothing refers to yet (`World.fresh`).
-/

namespace AdaptiveMqtt.Db.Context

/-- A clean session of MQTT 3 ends with the connection. -/
def Durable (ctx : Context) : Prop :=
  ctx.protocol ≠ .mqtt5 → ctx.cleanStart = true → ctx.sessionExpiryInterval = 0

/-- No messages in either direction. -/
def Bare (ctx : Context) : Prop := ∀ d, (ctx.msgs d).all = []

end AdaptiveMqtt.Db.Context

namespace AdaptiveMqtt.Broker

open Lib AdaptiveMqtt.Sub Db

/-- A broker in the middle of a function. -/
structure World where
  b : State
  held : List MsgStore
  fresh : Option MsgStore

/-- Between two events. -/
def State.still (b : State) : World := ⟨b, [], none⟩

def State.retainedAt (b : State) (p : Path) : Option MsgStore := (b.retains.get p).bind (·.retained)

/-- The number of nodes that refer to a store. -/
def State.retaining (b : State) (s : StoreId) : Nat :=
  b.retains.sum fun _ h => if h.retained.any (·.addr = s) then 1 else 0

/-- A function or a node of the retain tree refers to the store. -/
def World.Live (w : World) (s : MsgStore) : Prop :=
  s ∈ w.held ∨ ∃ p, w.b.retainedAt p = some s

/-- A client refers to the store. -/
def World.Listed (w : World) (s : MsgStore) : Prop :=
  ∃ c ctx d, w.b.contexts.get c = some ctx ∧ ∃ msg ∈ (ctx.msgs d).all, msg.store = s

/-- Put back the database and a client. -/
def World.put (w : World) (c : CtxId) (m : Machine) : World :=
  { w with b := { w.b with db := m.db, contexts := w.b.contexts.set c m.ctx } }

/-- What moves may do: `slow` clients may go to slow mode, `conn` clients have their
CONNECT handled, and `leaving` ones have handed their messages over. With `tidy`, a client
that is freed has no messages any more. -/
structure Terms where
  env : Env
  slow : CtxId → Prop
  conn : CtxId → Prop
  leaving : CtxId → Prop
  tidy : Prop

/-- Clients, reference counts and retained messages stay as they are. A client that is to
be freed has no id any more. -/
structure Aside (b b' : State) : Prop where
  contexts : b'.contexts = b.contexts
  nextContext : b'.nextContext = b.nextContext
  refs : ∀ s, b'.db.refs s = b.db.refs s
  nextMsg : b'.db.nextMsg = b.db.nextMsg
  lastDbId : b'.db.lastDbId = b.db.lastDbId
  retained : ∀ p, b'.retainedAt p = b.retainedAt p
  retaining : ∀ s, b'.retaining s = b.retaining s
  llForFree : ∀ c ∈ b'.llForFree, c ∈ b.llForFree ∨
    ∃ ctx, b.contexts.get c = some ctx ∧ ctx.state = .disused ∧ ctx.id = none

/-- The messages of a client stay in their lists, and its packets are as they were. -/
structure FieldsOnly (T : Terms) (c : CtxId) (ctx ctx' : Context) : Prop where
  lists : ∀ d, (ctx'.msgs d).inflight = (ctx.msgs d).inflight ∧
    (ctx'.msgs d).queued = (ctx.msgs d).queued ∧ (ctx'.msgs d).storage = (ctx.msgs d).storage
  journal : ctx'.journal = ctx.journal
  out : ctx'.out = ctx.out
  early : ctx'.early = ctx.early
  sock : ctx'.sock = ctx.sock ∨ ctx'.sock = none
  mode : ctx'.mode = ctx.mode ∨ ctx'.mode = .normalMode
  id : ctx'.id = ctx.id ∨ ctx'.id = none ∨ T.conn c ∧ ctx.state = .new
  new : ctx'.state = .new → ctx.state = .new
  disused : ctx.state = .disused → ctx'.state = .disused
  optIn : ctx.optIn = true → ctx'.optIn = true
  bridge : ctx'.bridge = ctx.bridge
  durable : ctx.Durable → ctx'.Durable

inductive Move (T : Terms) : World → World → Prop where
  | aside {w : World} {b' : State} (h : Aside w.b b') : Move T w { w with b := b' }
  | micro {w : World} {c : CtxId} {ctx : Context} {m' : Machine} (R : Rules)
    (hget : w.b.contexts.get c = some ctx) (hnet : R.net = T.env.net)
    (hslow : R.slow = true → T.slow c) (hstay : ¬ T.leaving c) (hlive : ∀ s, R.live s → w.Live s)
    (h : Micro R ⟨w.b.db, ctx⟩ m') : Move T w (w.put c m')
  | field {w : World} {c : CtxId} {ctx ctx' : Context} (hget : w.b.contexts.get c = some ctx)
    (h : FieldsOnly T c ctx ctx') : Move T w (w.put c ⟨w.b.db, ctx'⟩)
  | write {w : World} {c : CtxId} {ctx : Context} (hget : w.b.contexts.get c = some ctx) :
    Move T w (w.put c (Machine.sent ⟨w.b.db, ctx⟩ (T.env.net.write w.b.db ctx)).2)
  | accept {w : World} {ctx : Context} (hnew : ctx.state = .new ∧ ctx.id = none ∧ ctx.Bare)
    (hout : ctx.out = .empty ∧ ctx.early = false) (hquiet : ctx.mode = .normalMode ∧ ctx.journal = [])
    (hplain : ctx.bridge = none ∧ ctx.Durable) :
    Move T w { w with b := { w.b with contexts := w.b.contexts.set w.b.nextContext ctx
                                      nextContext := w.b.nextContext + 1 } }
  | store {w : World} {s : MsgStore} (hfresh : w.fresh = none) (hs : s.addr = w.b.db.lastDbId + 1) :
    Move T w { w with b := { w.b with db := { w.b.db with
                        lastDbId := w.b.db.lastDbId + 1
                        msgStore := w.b.db.msgStore.set s.addr ⟨s, 0, []⟩ } }
                      fresh := some s }
  | takeIn {w : World} {c : CtxId} {ctx : Context} {msg : ClientMsg} (qos : Qos)
    (hget : w.b.contexts.get c = some ctx) (hfresh : w.fresh = some msg.store)
    (hid : ctx.id ≠ none) (haddr : msg.addr = w.b.db.nextMsg)
    (hmode : msg.state = .storage → ctx.mode = .slowMode) :
    Move T w { w.put c (placeMsg .mdIn msg qos ⟨w.b.db, ctx⟩) with fresh := none }
  | holdFresh {w : World} {s : MsgStore} (hs : w.fresh = some s) :
    Move T w ⟨{ w.b with db := w.b.db.msgStoreRefInc s.addr }, s :: w.held, none⟩
  | hold {w : World} {s : MsgStore} (hs : w.Listed s) :
    Move T w { w with b := { w.b with db := w.b.db.msgStoreRefInc s.addr }, held := s :: w.held }
  | release {w : World} {s : MsgStore} (hs : s ∈ w.held) :
    Move T w { w with b := { w.b with db := w.b.db.msgStoreRefDec s.addr }, held := w.held.erase s }
  | retain {w : World} {p : Path} {h : RetainHier} {s : MsgStore} (hnode : w.b.retains.get p = some h)
    (hnone : h.retained = none) (hs : s ∈ w.held) :
    Move T w { w with b := { w.b with
      db := w.b.db.msgStoreRefInc s.addr
      retains := w.b.retains.set p { h with retained := some s } } }
  | unretain {w : World} {p : Path} {h : RetainHier} {s : MsgStore}
    (hnode : w.b.retains.get p = some h) (hs : h.retained = some s) :
    Move T w { w with b := { w.b with
      db := w.b.db.msgStoreRefDec s.addr
      retains := w.b.retains.set p { h with retained := none } } }
  | drop {w : World} {c : CtxId} {ctx : Context} {dir : Direction} {msg : ClientMsg} {md : MsgData}
    (hget : w.b.contexts.get c = some ctx)
    (hperm : ((ctx.msgs dir).all.map ClientMsg.key).Perm (msg.key :: md.all.map ClientMsg.key)) :
    Move T w (w.put c ((dropRef dir msg ⟨w.b.db, ctx⟩).onMsgs dir fun _ => md))
  | regroup {w : World} {c : CtxId} {ctx : Context} (dir : Direction) {md : MsgData}
    (hget : w.b.contexts.get c = some ctx)
    (hperm : (md.all.map ClientMsg.key).Perm ((ctx.msgs dir).all.map ClientMsg.key)) :
    Move T w (w.put c ⟨w.b.db, ctx.setMsgs dir md⟩)
  | takeOver {w : World} {found c : CtxId} {foundCtx ctx : Context} (hne : found ≠ c)
    (hfound : w.b.contexts.get found = some foundCtx) (hget : w.b.contexts.get c = some ctx)
    (hbare : ctx.Bare) (hconn : T.conn c) (hleave : T.leaving found) :
    Move T w ((w.put found ⟨w.b.db, { foundCtx with msgsIn := .empty 0, msgsOut := .empty 0 }⟩).put c
      ⟨w.b.db, { ctx with msgsIn := foundCtx.msgsIn.takeOver ctx.msgsIn
                          msgsOut := foundCtx.msgsOut.takeOver ctx.msgsOut }⟩)
  | free {w : World} {c : CtxId} {ctx : Context} (hget : w.b.contexts.get c = some ctx)
    (hbare : T.tidy → ctx.Bare) : Move T w { w with b := { w.b with contexts := w.b.contexts.del c } }

abbrev Moves (T : Terms) : World → World → Prop := Relation.ReflTransGen (Move T)

/-! ## Well-formed states -/

/-- What every function relies on: messages have addresses of their own, a client without a
CONNECT has no id and no messages, a client that is to be freed has no id, and no client is
a bridge of this broker. -/
structure Wf (conn : CtxId → Prop) (b : State) : Prop where
  sound : ∀ {c ctx}, b.contexts.get c = some ctx → ∀ d, Sound d ⟨b.db, ctx⟩
  new : ∀ {c ctx}, b.contexts.get c = some ctx → ¬ conn c → ctx.state = .new →
    ctx.id = none ∧ ctx.Bare
  allocated : ∀ {c ctx}, b.contexts.get c = some ctx → c < b.nextContext
  unused : ∀ c ∈ b.llForFree, c < b.nextContext ∧
    ∀ {ctx}, b.contexts.get c = some ctx → ctx.state = .disused ∧ ctx.id = none
  plain : ∀ {c ctx}, b.contexts.get c = some ctx → ctx.bridge = none ∧ ctx.Durable

section Wf

variable {T : Terms} {conn : CtxId → Prop} {w w' : World} {b b' : State}

/-- The fields of a well-formed state that concern one client. -/
structure ClientWf (conn : CtxId → Prop) (b : State) (c : CtxId) (ctx : Context) : Prop where
  sound : ∀ d, Sound d ⟨b.db, ctx⟩
  new : ¬ conn c → ctx.state = .new → ctx.id = none ∧ ctx.Bare
  allocated : c < b.nextContext
  unused : c ∈ b.llForFree → ctx.state = .disused ∧ ctx.id = none
  plain : ctx.bridge = none ∧ ctx.Durable

theorem Wf.client (h : Wf conn b) {c : CtxId} {ctx : Context} (hget : b.contexts.get c = some ctx) :
    ClientWf conn b c ctx :=
  ⟨h.sound hget, h.new hget, h.allocated hget, fun hc => (h.unused c hc).2 hget, h.plain hget⟩

theorem Wf.of_clients (hfree : ∀ c ∈ b.llForFree, c < b.nextContext)
    (h : ∀ {c ctx}, b.contexts.get c = some ctx → ClientWf conn b c ctx) : Wf conn b :=
  ⟨fun hg => (h hg).sound, fun hg => (h hg).new, fun hg => (h hg).allocated,
    fun c hc => ⟨hfree c hc, fun hg => (h hg).unused hc⟩, fun hg => (h hg).plain⟩

theorem ClientWf.mono {c : CtxId} {ctx : Context} (h : ClientWf conn b c ctx)
    (hmsg : b.db.nextMsg ≤ b'.db.nextMsg) (hctx : b.nextContext ≤ b'.nextContext)
    (hfree : b'.llForFree = b.llForFree) : ClientWf conn b' c ctx :=
  ⟨fun d => ⟨(h.sound d).nodup, fun a ha => ((h.sound d).fresh a ha).trans_le hmsg⟩, h.new,
    h.allocated.trans_le hctx, fun hc => h.unused (hfree ▸ hc), h.plain⟩

/-- A client is written to. -/
theorem Wf.set (h : Wf conn b) {c : CtxId} {ctx' : Context} {db : MosquittoDb}
    (hmsg : b.db.nextMsg ≤ db.nextMsg)
    (hc : ClientWf conn { b with db, contexts := b.contexts.set c ctx' } c ctx') :
    Wf conn { b with db, contexts := b.contexts.set c ctx' } := by
  refine .of_clients (fun d hd => (h.unused d hd).1) fun {d ctx} hg => ?_
  by_cases hd : d = c
  · subst hd
    rw [Heap.get_set_self] at hg
    cases hg
    exact hc
  · rw [Heap.get_set_ne _ _ hd] at hg
    exact (h.client hg).mono hmsg le_rfl rfl

theorem nextMsg_micro {R : Rules} {m m' : Machine} (h : Micro R m m') :
    m.db.nextMsg ≤ m'.db.nextMsg := by
  cases h with
  | frame hf => exact hf.nextMsg.ge
  | publish p hp => exact le_rfl
  | command c => exact le_rfl
  | shuffle dir hdir hsh => exact le_rfl
  | place dir hdir hid hlive haddr hmode hexact => exact Nat.le_succ _
  | removeOut hdir hmem he hexact => exact (refDec_nextMsg _ _).ge
  | removeIn hdir hmem => exact (refDec_nextMsg _ _).ge

/-- A client without an id and without messages stays so. -/
theorem bare_micro {R : Rules} {m m' : Machine} (h : Micro R m m')
    (hb : m.ctx.id = none ∧ m.ctx.Bare) : m'.ctx.Bare := by
  cases h with
  | frame hf => exact fun d => (hf.msgs d).symm ▸ hb.2 d
  | publish p hp => exact fun d => (sent_msgs _ _ d).symm ▸ hb.2 d
  | command c => exact fun d => (sendCommand_msgs _ _ _ d).symm ▸ hb.2 d
  | @shuffle dir md hdir hsh =>
    intro d
    by_cases hd : d = dir
    · subst hd
      have hmsgs : (m.onMsgs d fun _ => md).ctx.msgs d = md := Context.msgs_setMsgs_self _ _ _
      have hlen := hsh.perm.length_eq
      rw [hb.2 d, List.length_map, List.map_nil, List.length_nil] at hlen
      rw [hmsgs]
      exact List.length_eq_zero_iff.mp hlen
    · exact (Context.msgs_setMsgs_ne _ _ hd).symm ▸ hb.2 d
  | place dir hdir hid hlive haddr hmode hexact => exact absurd hb.1 hid
  | removeOut hdir hmem he hexact =>
    have hnil : m.ctx.msgsOut.inflight = [] := by
      have := hb.2 .mdOut
      simp only [MsgData.all, List.append_eq_nil_iff] at this
      exact this.1.1
    rw [hnil] at hmem
    cases hmem
  | removeIn hdir hmem =>
    have hnil : m.ctx.msgsIn.inflight = [] := by
      have := hb.2 .mdIn
      simp only [MsgData.all, List.append_eq_nil_iff] at this
      exact this.1.1
    rw [hnil] at hmem
    cases hmem

theorem bridge_of_core {ctx ctx' : Context} (hcore : ctx'.core = ctx.core)
    (h : ctx.bridge = none) : ctx'.bridge = none := by
  have hbridge := congrArg Context.bridge hcore
  simp only [Context.core, h, Option.map_none, Option.map_eq_none_iff] at hbridge
  exact hbridge

theorem durable_of_core {ctx ctx' : Context} (hcore : ctx'.core = ctx.core) (h : ctx.Durable) :
    ctx'.Durable := by
  unfold Context.Durable
  rw [Context.of_core (·.protocol) (fun _ => rfl) hcore,
    Context.of_core (·.cleanStart) (fun _ => rfl) hcore,
    Context.of_core (·.sessionExpiryInterval) (fun _ => rfl) hcore]
  exact h

theorem clientWf_micro {R : Rules} {c : CtxId} {ctx : Context} {m' : Machine}
    (hc : ClientWf conn w.b c ctx) (h : Micro R ⟨w.b.db, ctx⟩ m') :
    ClientWf conn (w.put c m').b c m'.ctx := by
  have hcore := (core_micro h).2
  have hstate : m'.ctx.state = ctx.state := Context.of_core (·.state) (fun _ => rfl) hcore
  have hid : m'.ctx.id = ctx.id := Context.of_core (·.id) (fun _ => rfl) hcore
  refine ⟨fun d => sound_micro (hc.sound d) h, fun hconn hnew => ?_, hc.allocated,
    fun hfree => ?_, ?_⟩
  · have hold := hc.new hconn (hstate ▸ hnew)
    exact ⟨hid.trans hold.1, bare_micro h hold⟩
  · rw [hstate, hid]
    exact hc.unused hfree
  · exact ⟨bridge_of_core hcore hc.plain.1, durable_of_core hcore hc.plain.2⟩

theorem ClientWf.write {c : CtxId} {ctx ctx' : Context} {db : MosquittoDb}
    (h : ClientWf conn w.b c ctx) (hmsg : db.nextMsg = w.b.db.nextMsg)
    (hkeys : ∀ d, ((ctx'.msgs d).all.map (·.addr)).Subperm ((ctx.msgs d).all.map (·.addr)))
    (hnew : ctx'.state = .new → ctx.state = .new)
    (hid : ctx'.id = ctx.id ∨ ctx'.id = none ∨ conn c ∧ ctx.state = .new)
    (hdis : ctx.state = .disused → ctx'.state = .disused)
    (hplain : ctx.bridge = none ∧ ctx.Durable → ctx'.bridge = none ∧ ctx'.Durable) :
    ClientWf conn (w.put c ⟨db, ctx'⟩).b c ctx' := by
  refine ⟨fun d => ⟨?_, fun a ha => ?_⟩, fun hconn hn => ?_, h.allocated, fun hf => ?_,
    hplain h.plain⟩
  · obtain ⟨l, hp, hs⟩ := hkeys d
    exact hp.nodup_iff.mp ((h.sound d).nodup.sublist hs)
  · obtain ⟨a', ha', he⟩ := List.mem_map.mp ((hkeys d).subset (List.mem_map.mpr ⟨a, ha, rfl⟩))
    rw [← he]
    exact ((h.sound d).fresh a' ha').trans_le hmsg.ge
  · obtain ⟨hi, hb⟩ := h.new hconn (hnew hn)
    refine ⟨?_, fun d => ?_⟩
    · rcases hid with hid | hid | hid
      · exact hid.trans hi
      · exact hid
      · exact absurd hid.1 hconn
    · have hlen := (hkeys d).length_le
      rw [hb d, List.map_nil, List.length_nil, List.length_map] at hlen
      exact List.length_eq_zero_iff.mp (Nat.le_zero.mp hlen)
  · obtain ⟨hs, hi⟩ := h.unused hf
    refine ⟨hdis hs, ?_⟩
    rcases hid with hid | hid | hid
    · exact hid.trans hi
    · exact hid
    · exact absurd (hid.2.symm.trans hs) (nomatch ·)

theorem FieldsOnly.all {c : CtxId} {ctx ctx' : Context} (h : FieldsOnly T c ctx ctx')
    (d : Direction) : (ctx'.msgs d).all = (ctx.msgs d).all := by
  obtain ⟨hi, hq, hs⟩ := h.lists d
  rw [MsgData.all, MsgData.all, hi, hq, hs]

theorem MsgData.all_takeOver (found md : MsgData) : (found.takeOver md).all = found.all := rfl

theorem dropRef_msgs (dir d : Direction) (msg : ClientMsg) (m : Machine) :
    (dropRef dir msg m).ctx.msgs d = m.ctx.msgs d := by
  unfold dropRef
  simp only
  split
  · cases d <;> rfl
  · rfl

theorem dropRef_core (dir : Direction) (msg : ClientMsg) (m : Machine) :
    (dropRef dir msg m).ctx.core = m.ctx.core := by
  unfold dropRef
  simp only
  split <;> rfl

theorem setMsgs_core (dir : Direction) (md : MsgData) (ctx : Context) :
    (ctx.setMsgs dir md).core = ctx.core := by
  cases dir <;> rfl

/-- A list of one direction is rewritten and nothing else of the client. -/
theorem ClientWf.setMsgs {c : CtxId} {ctx ctx' : Context} {db : MosquittoDb}
    (h : ClientWf conn w.b c ctx) (hmsg : db.nextMsg = w.b.db.nextMsg) (hcore : ctx'.core = ctx.core)
    (hkeys : ∀ d, ((ctx'.msgs d).all.map (·.addr)).Subperm ((ctx.msgs d).all.map (·.addr))) :
    ClientWf conn (w.put c ⟨db, ctx'⟩).b c ctx' := by
  have hstate : ctx'.state = ctx.state := Context.of_core (·.state) (fun _ => rfl) hcore
  refine h.write hmsg hkeys (hstate ▸ id) (.inl ?_) (hstate ▸ id) ?_
  · exact Context.of_core (·.id) (fun _ => rfl) hcore
  · exact fun hp => ⟨bridge_of_core hcore hp.1, durable_of_core hcore hp.2⟩

theorem addr_subperm_of_keys {l l' : List ClientMsg}
    (h : (l'.map ClientMsg.key).Subperm (l.map ClientMsg.key)) :
    (l'.map (·.addr)).Subperm (l.map (·.addr)) := by
  rw [map_addr_eq, map_addr_eq l]
  obtain ⟨l₁, hp, hs⟩ := h
  exact ⟨l₁.map (·.addr), hp.map _, hs.map _⟩

/-- The lists after one direction is rewritten. -/
theorem subperm_setMsgs {dir : Direction} {md : MsgData} {ctx₀ ctx : Context}
    (hctx : ∀ d, ctx₀.msgs d = ctx.msgs d)
    (h : (md.all.map ClientMsg.key).Subperm ((ctx.msgs dir).all.map ClientMsg.key)) (d : Direction) :
    (((ctx₀.setMsgs dir md).msgs d).all.map (·.addr)).Subperm ((ctx.msgs d).all.map (·.addr)) := by
  by_cases hd : d = dir
  · subst hd
    rw [Context.msgs_setMsgs_self]
    exact addr_subperm_of_keys h
  · rw [Context.msgs_setMsgs_ne _ _ hd, hctx]

/-- Nothing of the clients changes. -/
theorem Wf.same (h : Wf conn b) {db : MosquittoDb} {retains : Heap Path RetainHier}
    (hmsg : db.nextMsg = b.db.nextMsg) : Wf conn { b with db, retains } :=
  .of_clients (fun d hd => (h.unused d hd).1) fun hg => (h.client hg).mono hmsg.ge le_rfl rfl

theorem wf_accept {ctx : Context} (hw : Wf conn b)
    (hnew : ctx.state = .new ∧ ctx.id = none ∧ ctx.Bare) (hplain : ctx.bridge = none ∧ ctx.Durable) :
    Wf conn { b with contexts := b.contexts.set b.nextContext ctx
                     nextContext := b.nextContext + 1 } := by
  refine .of_clients (fun d hd => (hw.unused d hd).1.trans (Nat.lt_succ_self _)) fun {c ctx'} hg => ?_
  by_cases hc : c = b.nextContext
  · subst hc
    rw [Heap.get_set_self] at hg
    cases hg
    refine ⟨fun d => ⟨?_, ?_⟩, fun _ _ => hnew.2, Nat.lt_succ_self _, fun hf => ?_, hplain⟩
    · show ((ctx.msgs d).all.map _).Nodup
      rw [hnew.2.2 d]
      exact List.nodup_nil
    · show ∀ a ∈ (ctx.msgs d).all, _
      rw [hnew.2.2 d]
      exact fun a ha => nomatch ha
    · exact absurd (hw.unused _ hf).1 (lt_irrefl _)
  · rw [Heap.get_set_ne _ _ hc] at hg
    exact (hw.client hg).mono le_rfl (Nat.le_succ _) rfl

theorem wf_takeOver {found c : CtxId} {foundCtx ctx : Context} (hw : Wf conn w.b)
    (hfound : w.b.contexts.get found = some foundCtx) (hget : w.b.contexts.get c = some ctx)
    (hconn : conn c) :
    Wf conn ((w.put found ⟨w.b.db, { foundCtx with msgsIn := .empty 0, msgsOut := .empty 0 }⟩).put c
      ⟨w.b.db, { ctx with msgsIn := foundCtx.msgsIn.takeOver ctx.msgsIn
                          msgsOut := foundCtx.msgsOut.takeOver ctx.msgsOut }⟩).b := by
  have hf := hw.client hfound
  have hempty : Wf conn
      (w.put found ⟨w.b.db, { foundCtx with msgsIn := .empty 0, msgsOut := .empty 0 }⟩).b := by
    refine hw.set le_rfl (hf.write rfl (fun d => ?_) id (.inl rfl) id id)
    cases d <;> exact List.nil_subperm
  have hc := hw.client hget
  refine hempty.set le_rfl ⟨fun d => ?_, fun h => absurd hconn h, hc.allocated, hc.unused, hc.plain⟩
  cases d
  · exact ⟨(hf.sound .mdIn).nodup, (hf.sound .mdIn).fresh⟩
  · exact ⟨(hf.sound .mdOut).nodup, (hf.sound .mdOut).fresh⟩

theorem wf_free {c : CtxId} (hw : Wf conn b) : Wf conn { b with contexts := b.contexts.del c } := by
  refine .of_clients (fun d hd => (hw.unused d hd).1) fun {d ctx'} hg => ?_
  by_cases hd : d = c
  · subst hd
    rw [Heap.get_del_self] at hg
    cases hg
  · rw [Heap.get_del_ne _ hd] at hg
    exact (hw.client hg).mono le_rfl le_rfl rfl

theorem wf_aside (hw : Wf conn b) (ha : Aside b b') : Wf conn b' := by
  refine .of_clients (fun c hf => ?_) fun {c ctx} hg => ?_
  · rw [ha.nextContext]
    rcases ha.llForFree c hf with hf | ⟨ctx, hg, -⟩
    · exact (hw.unused c hf).1
    · exact hw.allocated hg
  · have hg' : b.contexts.get c = some ctx := ha.contexts ▸ hg
    have hc := hw.client hg'
    refine ⟨fun d => ⟨(hc.sound d).nodup, fun a h => ?_⟩, hc.new, ?_, fun hf => ?_, hc.plain⟩
    · exact ((hc.sound d).fresh a h).trans_le ha.nextMsg.ge
    · exact hc.allocated.trans_le ha.nextContext.ge
    · rcases ha.llForFree c hf with hf | ⟨ctx', hg'', hs⟩
      · exact hc.unused hf
      · cases hg'.symm.trans hg''
        exact hs

/-- **Moves keep a state well-formed.** -/
theorem wf_move (hw : Wf T.conn w.b) (h : Move T w w') : Wf T.conn w'.b := by
  cases h with
  | aside ha => exact wf_aside hw ha
  | micro R hget hnet hslow hstay hlive hm =>
    exact hw.set (nextMsg_micro hm) (clientWf_micro (hw.client hget) hm)
  | @field c ctx ctx' hget hf =>
    refine hw.set le_rfl ((hw.client hget).write rfl (fun d => ?_) hf.new hf.id hf.disused
      fun hp => ⟨hf.bridge.trans hp.1, hf.durable hp.2⟩)
    rw [hf.all d]
  | @write c ctx hget =>
    refine hw.set le_rfl ((hw.client hget).setMsgs rfl rfl fun d => ?_)
    cases d <;> exact List.Subperm.refl _
  | accept hnew hout hquiet hplain => exact wf_accept hw hnew hplain
  | store hfresh hs => exact hw.same rfl
  | @takeIn c ctx msg qos hget hfresh hid haddr hmode =>
    have hm : Micro (loose T.env.net) ⟨w.b.db, ctx⟩ (placeMsg .mdIn msg qos ⟨w.b.db, ctx⟩) :=
      .place .mdIn trivial hid trivial haddr hmode (nomatch ·)
    exact hw.set (nextMsg_micro hm) (clientWf_micro (hw.client hget) hm)
  | holdFresh hs => exact hw.same rfl
  | hold hs => exact hw.same rfl
  | release hs => exact hw.same (refDec_nextMsg _ _)
  | retain hnode hnone hs => exact hw.same rfl
  | unretain hnode hs => exact hw.same (refDec_nextMsg _ _)
  | @drop c ctx dir msg md hget hperm =>
    refine hw.set (refDec_nextMsg _ _).ge ((hw.client hget).setMsgs (refDec_nextMsg _ _) ?_ ?_)
    · exact (setMsgs_core _ _ _).trans (dropRef_core _ _ _)
    · refine subperm_setMsgs (fun d => dropRef_msgs dir d msg ⟨w.b.db, ctx⟩) ?_
      exact (List.sublist_cons_self _ _).subperm.trans hperm.symm.subperm
  | @regroup c ctx dir md hget hperm =>
    refine hw.set le_rfl ((hw.client hget).setMsgs rfl (setMsgs_core _ _ _) ?_)
    exact subperm_setMsgs (fun _ => rfl) hperm.subperm
  | takeOver hne hfound hget hbare hconn hleave => exact wf_takeOver hw hfound hget hconn
  | free hget hbare => exact wf_free hw

theorem wf_moves (hw : Wf T.conn w.b) (h : Moves T w w') : Wf T.conn w'.b := by
  induction h with
  | refl => exact hw
  | tail _ h ih => exact wf_move ih h

end Wf

end AdaptiveMqtt.Broker
