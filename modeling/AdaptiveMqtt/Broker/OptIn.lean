import AdaptiveMqtt.Broker.Return

/-!
# Who takes part

A client takes part in the transmit policy if its CONNECT carried a threshold. The others are
in slow mode only after a PUBACK that `handle__pubackcomp` takes for a latency sample and finds
late, as it does with the first: their threshold is 0. Only in slow mode messages enter storage.
-/

namespace AdaptiveMqtt.Db

/-- The message that a journal entry takes in. -/
def Event.takesIn : Event → Option ClientMsg
  | .placed msg | .received msg => some msg
  | .acked _ _ _ _ | .expired _ _ | .published _ _ => none

/-- Not in slow mode, and no message was ever put in storage. -/
structure Context.Plain (ctx : Context) : Prop where
  mode : ctx.mode ≠ .slowMode
  journal : ∀ e ∈ ctx.journal, ∀ msg, e.takesIn = some msg → msg.state ≠ .storage

section Plain

variable {R : Rules} {m m' : Machine} {ctx ctx' : Context}

theorem Context.Plain.of_eq (h : ctx.Plain) (hmode : ctx'.mode = ctx.mode ∨ ctx'.mode = .normalMode)
    (hjournal : ctx'.journal = ctx.journal) : ctx'.Plain := by
  refine ⟨fun hslow => ?_, hjournal ▸ h.journal⟩
  rcases hmode with hm | hm
  · exact h.mode (hm.symm.trans hslow)
  · exact nomatch hm.symm.trans hslow

/-- An entry is added. -/
theorem Context.Plain.log (h : ctx.Plain) {e : Event}
    (he : ∀ msg, e.takesIn = some msg → msg.state ≠ .storage) : (ctx.log e).Plain := by
  refine ⟨h.mode, fun e' hmem => ?_⟩
  rcases List.mem_append.mp hmem with hmem | hmem
  · exact h.journal e' hmem
  · cases List.mem_singleton.mp hmem
    exact he

theorem plain_place (h : m.ctx.Plain) (dir : Direction) {msg : ClientMsg} (qos : Qos)
    (hmode : msg.state = .storage → m.ctx.mode = .slowMode) :
    (placeMsg dir msg qos m).ctx.Plain := by
  have hset : (m.ctx.setMsgs dir (((m.ctx.msgs dir).place msg).count msg qos)).Plain := by
    cases dir <;> exact h.of_eq (.inl rfl) rfl
  refine hset.log fun a ha hs => ?_
  cases dir <;> cases ha <;> exact h.mode (hmode hs)

/-- Who may not go to slow mode stays plain. -/
theorem plain_micro (hslow : R.slow ≠ true) (h : m.ctx.Plain) (hm : Micro R m m') :
    m'.ctx.Plain := by
  cases hm with
  | frame hf => exact h.of_eq (hf.mode.imp_right fun hm => hm.resolve_right hslow) hf.journal
  | publish p hp => exact h.of_eq (.inl rfl) rfl
  | command c => exact h.of_eq (.inl rfl) rfl
  | shuffle dir hdir hsh => cases dir <;> exact h.of_eq (.inl rfl) rfl
  | place dir hdir hid hlive haddr hmode hexact => exact plain_place h dir _ hmode
  | @removeOut item e hdir hmem he hexact =>
    have hrem : ((m.messageRemove .mdOut item).ctx.drop item.store.addr).Plain :=
      h.of_eq (.inl rfl) rfl
    refine hrem.log fun msg hmsg => ?_
    cases e with
    | placed a | received a => cases he
    | acked _ _ _ _ | expired _ _ | published _ _ => cases hmsg
  | removeIn hdir hmem => exact h.of_eq (.inl rfl) rfl

end Plain

end AdaptiveMqtt.Db

namespace AdaptiveMqtt.Broker

open Lib Db

/-- The client takes part in the transmit policy. -/
def State.optedIn (b : State) (c : CtxId) : Prop := (b.contexts.get c).any (·.optIn) = true

/-- Who does not take part is plain, and may not go to slow mode. -/
structure OptInOnly (slow : CtxId → Prop) (w : World) : Prop where
  bounded : ∀ c, slow c → c < w.b.nextContext
  plain : ∀ {c ctx}, w.b.contexts.get c = some ctx → ctx.optIn = false → ¬ slow c ∧ ctx.Plain

section OptInOnly

variable {T : Terms} {slow : CtxId → Prop} {w w' : World} {c : CtxId} {ctx : Context}

/-- A client is written to. -/
theorem OptInOnly.put (h : OptInOnly slow w) (hget : w.b.contexts.get c = some ctx) {m' : Machine}
    (hopt : ctx.optIn = true → m'.ctx.optIn = true)
    (hplain : ¬ slow c → ctx.Plain → m'.ctx.Plain) : OptInOnly slow (w.put c m') := by
  refine ⟨h.bounded, fun {d ctx'} hd hout => ?_⟩
  by_cases hdc : d = c
  · subst hdc
    cases (put_get m').symm.trans hd
    have hout' : ctx.optIn = false := by
      by_contra hin
      exact absurd ((hopt (Bool.not_eq_false _ ▸ hin)).symm.trans hout) Bool.false_ne_true.symm
    obtain ⟨hs, hp⟩ := h.plain hget hout'
    exact ⟨hs, hplain hs hp⟩
  · exact h.plain ((Heap.get_set_ne _ _ hdc).symm.trans hd) hout

/-- Only what the clients do not see changes. -/
theorem OptInOnly.of_contexts (h : OptInOnly slow w) (hcontexts : w'.b.contexts = w.b.contexts)
    (hnext : w'.b.nextContext = w.b.nextContext) : OptInOnly slow w' :=
  ⟨fun c hc => hnext ▸ h.bounded c hc, fun hget hout => h.plain (hcontexts ▸ hget) hout⟩

theorem dropRef_fields (dir : Direction) (msg : ClientMsg) (m : Machine) :
    (dropRef dir msg m).ctx.optIn = m.ctx.optIn ∧ (dropRef dir msg m).ctx.mode = m.ctx.mode ∧
      (dropRef dir msg m).ctx.journal = m.ctx.journal := by
  unfold dropRef
  simp only
  split <;> exact ⟨rfl, rfl, rfl⟩

theorem optInOnly_move (h : OptInOnly T.slow w) (hm : Move T w w') : OptInOnly T.slow w' := by
  cases hm with
  | aside ha => exact h.of_contexts ha.contexts ha.nextContext
  | @micro c ctx m' R hget hnet hslow hstay hlive hm =>
    have hopt : m'.ctx.optIn = ctx.optIn :=
      Context.of_core (·.optIn) (fun _ => rfl) (core_micro hm).2
    exact h.put hget (fun ho => hopt.trans ho) fun hs hp => plain_micro (mt hslow hs) hp hm
  | field hget hf => exact h.put hget hf.optIn fun _ hp => hp.of_eq hf.mode hf.journal
  | write hget => exact h.put hget (fun ho => ho) fun _ hp => hp.of_eq (.inl rfl) rfl
  | @accept ctx hnew hout hquiet hplain =>
    refine ⟨fun c hc => Nat.lt_succ_of_lt (h.bounded c hc), fun {d ctx'} hd ho => ?_⟩
    by_cases hdc : d = w.b.nextContext
    · subst hdc
      cases (Heap.get_set_self _ _ _).symm.trans hd
      refine ⟨fun hs => absurd (h.bounded _ hs) (lt_irrefl _), ?_, ?_⟩
      · exact fun hs => nomatch hquiet.1.symm.trans hs
      · rw [hquiet.2]
        exact fun e he => nomatch he
    · exact h.plain ((Heap.get_set_ne _ _ hdc).symm.trans hd) ho
  | store hfresh hs => exact h.of_contexts rfl rfl
  | @takeIn c ctx msg qos hget hfresh hid haddr hmode =>
    exact (h.put hget (fun ho => ho) fun _ hp => plain_place hp .mdIn qos hmode).of_contexts rfl rfl
  | holdFresh hs => exact h.of_contexts rfl rfl
  | hold hs => exact h.of_contexts rfl rfl
  | release hs => exact h.of_contexts rfl rfl
  | retain hnode hnone hs => exact h.of_contexts rfl rfl
  | unretain hnode hs => exact h.of_contexts rfl rfl
  | @drop c ctx dir msg md hget hperm =>
    obtain ⟨hopt, hmode, hjournal⟩ := dropRef_fields dir msg ⟨w.b.db, ctx⟩
    refine h.put hget (fun ho => ?_) fun _ hp => ?_
    · cases dir <;> exact hopt.trans ho
    · cases dir <;> exact hp.of_eq (.inl hmode) hjournal
  | @regroup c ctx dir md hget hperm =>
    refine h.put hget (fun ho => ?_) fun _ hp => ?_
    · cases dir <;> exact ho
    · cases dir <;> exact hp.of_eq (.inl rfl) rfl
  | @takeOver found c foundCtx ctx hne hfound hget hbare hconn hleave =>
    have hleft : OptInOnly T.slow (w.put found
        ⟨w.b.db, { foundCtx with msgsIn := .empty 0, msgsOut := .empty 0 }⟩) :=
      h.put hfound (fun ho => ho) fun _ hp => hp.of_eq (.inl rfl) rfl
    exact hleft.put ((Heap.get_set_ne _ _ hne.symm).trans hget) (fun ho => ho)
      fun _ hp => hp.of_eq (.inl rfl) rfl
  | @free c ctx hget hbare =>
    refine ⟨h.bounded, fun {d ctx'} hd ho => ?_⟩
    by_cases hdc : d = c
    · subst hdc
      exact nomatch (Heap.get_del_self _ _).symm.trans hd
    · exact h.plain ((Heap.get_del_ne _ hdc).symm.trans hd) ho

theorem optInOnly_moves (h : OptInOnly T.slow w) (hm : Moves T w w') : OptInOnly T.slow w' := by
  induction hm with
  | refl => exact h
  | tail _ hm ih => exact optInOnly_move ih hm

end OptInOnly

/-! ## Runs -/

section Runs

variable {env : Env} {config : Config} {clock : Nat → Reading} {b : State} {c : CtxId}
  {ctx : Context}

/-- Between two events who does not take part is plain. -/
theorem plain_lawfully (h : Lawfully env config clock State.optedIn False b) :
    ∀ {c ctx}, b.contexts.get c = some ctx → ctx.optIn = false → ctx.Plain := by
  refine h.keep
    (I := fun b => ∀ {c ctx}, b.contexts.get c = some ctx → ctx.optIn = false → ctx.Plain) nofun fun {b e} hw hplain hgo => ?_
  have hstart : OptInOnly b.optedIn b.still := by
    refine ⟨fun c hc => ?_, fun {c ctx} hget hout => ⟨fun hin => ?_, hplain hget hout⟩⟩
    · obtain ⟨ctx, hget, -⟩ := (Option.any_eq_true _ _).mp hc
      exact hw.allocated hget
    · have hget : b.contexts.get c = some ctx := hget
      rw [State.optedIn, hget, Option.any_some, hout] at hin
      cases hin
  obtain ⟨leaving, w₁, hfirst, -, hsecond⟩ := hgo
  have hmid := optInOnly_moves (T := ⟨env, b.optedIn, e.connecting, leaving, False⟩) hstart hfirst
  have hend := optInOnly_moves (T := ⟨env, b.optedIn, e.connecting, fun _ => False, False⟩)
    hmid hsecond
  exact fun {c ctx} hget hout => (hend.plain hget hout).2

/-- The event is a PUBACK that `handle__pubackcomp` accepts from a client whose CONNECT had no
threshold, while a `latency` message is out to it (`send_time`). -/
def Event.SamplesUnasked (b : State) (e : Event) : Prop :=
  ∃ c p ctx, e = .ack c .puback p ∧ b.contexts.get c = some ctx ∧ ctx.optIn = false ∧
    ctx.Accepts .puback p ∧ ctx.sendTime.1 > 0

/-- The states of the broker between two events, in runs without such a PUBACK. -/
inductive Unsampled (env : Env) (config : Config) (clock : Nat → Reading) : State → Prop where
  | start : Unsampled env config clock (State.dbOpen config clock)
  | next {b : State} (e : Event) (h : Unsampled env config clock b) (ready : e.ready b = true)
      (asked : ¬ e.SamplesUnasked b) : Unsampled env config clock (b.exec env e)

theorem Unsampled.lawfully (h : Unsampled env config clock b) :
    Lawfully env config clock State.optedIn False b := by
  induction h with
  | start => exact .start
  | @next b e _ hready hasked ih =>
    refine ih.next e ⟨hready, fun c type p he => ?_, False.elim⟩
    by_cases hin : b.optedIn c
    · exact .inl hin
    · refine .inr fun ctx hget haccepts hsent hqos => ?_
      have hout : ctx.optIn = false := by
        rw [State.optedIn, hget, Option.any_some] at hin
        simpa using hin
      cases type with
      | puback => exact absurd ⟨c, p, ctx, he, hget, hout, haccepts, hsent⟩ hasked
      | pubcomp => cases hqos

/-- **Opting in is needed while no latency is sampled**: if no PUBACK is accepted from a client
whose CONNECT had no threshold while `send_time` is set, such a client is never in slow mode,
and no message is put in its storage. -/
theorem slow_mode_opt_in (h : Unsampled env config clock b)
    (hget : b.contexts.get c = some ctx) (hout : ctx.optIn = false) :
    ctx.mode ≠ .slowMode ∧
      ∀ msg, .placed msg ∈ ctx.journal ∨ .received msg ∈ ctx.journal → msg.state ≠ .storage := by
  have hplain := plain_lawfully h.lawfully hget hout
  refine ⟨hplain.mode, fun msg hmem => ?_⟩
  rcases hmem with hmem | hmem
  · exact hplain.journal _ hmem msg rfl
  · exact hplain.journal _ hmem msg rfl

/-! ### A subscriber of `latency` -/

def plainConnect (clientId : Bytes) : ConnectPacket :=
  { clientId, protocol := .mqtt311, isBridge := false, cleanStart := true, keepalive := 60
    properties := [], will := none, willDelayInterval := 0, thresholdL := none }

def publishOf (topic payload : Bytes) (mid : UInt16) : PublishPacket :=
  { dup := false, qos := some .q1, retain := false, topic := .ok topic, mid := .ok mid
    properties := .ok [], mapped := .ok topic, payload }

/-- One client subscribes to `latency` and `t`, and another one is connected. -/
def twoClients : List Event :=
  [.accept 3 none, .connect 0 .q2 (plainConnect (ascii "s")),
   .subscribe 0
     { command := 0x82, mid := .ok 1, properties := .ok []
       filters := [⟨.ok (ascii "latency"), .ok 1⟩, ⟨.ok (ascii "t"), .ok 1⟩] },
   .accept 4 none, .connect 1 .q2 (plainConnect (ascii "p"))]

/-- The state after some events. -/
def after (es : List Event) : State :=
  es.foldl (fun b e => b.exec .granting e) (State.dbOpen Config.init fun t => ⟨1000 + t, 0, 0⟩)

def firstPuback : AckPacket :=
  { command := 0x40, remainingLength := 2, mid := .ok 1, reasonCode := .ok 0, properties := .ok []
    trailing := false }

/-- A PUBACK before any `latency` message is no sample. -/
theorem slow_mode_opt_in_puback :
    let b₀ := State.dbOpen Config.init fun t => ⟨1000 + t, 0, 0⟩
    let b₁ := (b₀.exec .granting (.accept 3 none)).exec .granting
      (.connect 0 .q2 (plainConnect (ascii "s")))
    let b := b₁.exec .granting (.ack 0 .puback firstPuback)
    ∃ ctx, b.contexts.get 0 = some ctx ∧ ctx.state = .active ∧ ctx.mode ≠ .slowMode := by
  intro b₀ b₁ b
  have hfree : ∀ {b : State} {e : Event}, (∀ c type p, e ≠ .ack c type p) →
      ¬ e.SamplesUnasked b := fun hack ⟨c, p, _, he, _⟩ => hack c .puback p he
  have h₁ : Unsampled .granting Config.init (fun t => ⟨1000 + t, 0, 0⟩) b₁ :=
    (Unsampled.start.next (.accept 3 none) rfl (hfree nofun)).next _ (by decide) (hfree nofun)
  have htime : (b₁.contexts.get 0).all (fun ctx => decide (ctx.sendTime.1 ≤ 0)) = true := by decide
  have hack : ¬ (Event.ack 0 .puback firstPuback).SamplesUnasked b₁ := by
    rintro ⟨c, p, ctx, he, hget, -, -, hsent⟩
    cases he
    rw [hget, Option.all_some, decide_eq_true_eq] at htime
    exact absurd hsent (not_lt.mpr htime)
  have hactive : (b.contexts.get 0).any
      (fun ctx => decide (ctx.state = .active ∧ ctx.optIn = false)) = true := by decide +kernel
  obtain ⟨ctx, hget, hctx⟩ := (Option.any_eq_true _ _).mp hactive
  obtain ⟨hstate, hout⟩ := of_decide_eq_true hctx
  exact ⟨ctx, hget, hstate, (slow_mode_opt_in (h₁.next _ (by decide) hack) hget hout).1⟩

/-- The first PUBACK for a `latency` message is late: the threshold is 0. -/
theorem slow_mode_unasked : ¬ ∀ env config clock b, Reaches env config clock b →
    ∀ c ctx, b.contexts.get c = some ctx → ctx.optIn = false → ctx.mode ≠ .slowMode ∧
      ∀ msg, .placed msg ∈ ctx.journal ∨ .received msg ∈ ctx.journal → msg.state ≠ .storage := by
  intro h
  let es := twoClients ++
    [.publish 1 (publishOf (ascii "latency") [] 1), .ack 0 .puback firstPuback]
  have hrun : Reaches .granting Config.init (fun t => ⟨1000 + t, 0, 0⟩) (after es) :=
    @Reaches.run _ _ _ _ es .start (by decide +kernel)
  have hslow : ((after es).contexts.get 0).any
      (fun ctx => ctx.mode = .slowMode && ctx.optIn = false) = true := by decide +kernel
  obtain ⟨ctx, hget, hslow⟩ := (Option.any_eq_true _ _).mp hslow
  rw [Bool.and_eq_true, decide_eq_true_eq, decide_eq_true_eq] at hslow
  exact (h _ _ _ (after es) hrun 0 ctx hget hslow.2).1 hslow.1

end Runs

end AdaptiveMqtt.Broker
