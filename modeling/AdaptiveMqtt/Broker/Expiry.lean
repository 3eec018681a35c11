import AdaptiveMqtt.Broker.Tidy

/-!
# Sessions that expire

Runs of the broker in which `context__disconnect` and `session_expiry__remove` may also be
called on their own, for any client. A ghost remembers when each client was seen to lose its
connection; the list is read against it.
-/

namespace AdaptiveMqtt.Broker

open Lib Db

/-! ## Runs -/

/-- An event of the main loop, or one of the functions alone. -/
inductive SessionCall where
  | event (e : Event)
  | disconnect (c : CtxId)
  | remove (c : CtxId)

def State.call (env : Env) (b : State) : SessionCall → State
  | .event e => b.exec env e
  | .disconnect c => contextDisconnect env c b
  | .remove c => sessionExpiryRemove c b

/-- A packet comes from a client whose socket is open. -/
def Event.ready (b : State) (e : Event) : Bool := e.source.all b.connected

def SessionCall.ready (b : State) : SessionCall → Bool
  | .event e => e.ready b
  | .disconnect _ | .remove _ => true

/-- The client has been disconnected. -/
def State.gone (b : State) (c : CtxId) : Bool := (b.contexts.get c).any (·.state = .disconnected)

/-- When the clients were disconnected, after a call that leads from `b` to `b'`. -/
def leaving (b b' : State) (left : CtxId → Int) (c : CtxId) : Int :=
  if b'.gone c = true ∧ b.gone c = false then b.db.nowRealS else left c

/-- Runs of calls, with the times at which the clients were disconnected. -/
inductive SessionRun (env : Env) (config : Config) (clock : Nat → Reading) :
    (CtxId → Int) → State → Prop where
  | start : SessionRun env config clock (fun _ => 0) (State.dbOpen config clock)
  | next {left : CtxId → Int} {b : State} (x : SessionCall) (h : SessionRun env config clock left b)
    (hready : x.ready b = true) : SessionRun env config clock (leaving b (b.call env x) left) (b.call env x)

/-! ## The invariant -/

def State.expiryTime (b : State) (c : CtxId) : Int :=
  (b.contexts.get c).elim 0 (·.sessionExpiryTime)

/-- The session never expires. -/
def State.endless (b : State) (ctx : Context) : Prop :=
  b.db.config.persistentClientExpiration = 0 ∧ ctx.sessionExpiryInterval = 0xFFFFFFFF

/-- The smaller of the interval of the client and the limit, if there is one. -/
def State.allowance (b : State) (ctx : Context) : Nat :=
  if b.db.config.persistentClientExpiration = 0 then ctx.sessionExpiryInterval
  else min ctx.sessionExpiryInterval b.db.config.persistentClientExpiration

namespace Registry

/-- The sessions in the list end when the ghost says. -/
def Timed (left : CtxId → Int) (r : Registry) : Prop :=
  ∀ c ∈ r.expiryList, ∀ p, r.parties c = some p →
    p.sessionExpiryTime = left c +
      ((if r.limit = 0 then p.sessionExpiryInterval else min r.limit p.sessionExpiryInterval : Nat) : Int)

end Registry

section SessionRun

variable {env : Env} {config : Config} {clock : Nat → Reading} {left : CtxId → Int} {b b' : State}
  {c : CtxId} {x : SessionCall}

theorem gone_eq (b : State) (c : CtxId) :
    b.gone c = (b.registry.parties c).any (·.state = .disconnected) :=
  (any_parties c b fun p => p.state = .disconnected).symm

theorem Event.open_source {e : Event} (hready : e.ready b = true) (hc : e.source = some c) :
    ∃ p, b.registry.parties c = some p ∧ p.sock ≠ none := by
  have hconn : b.connected c = true := by
    rw [Event.ready, hc] at hready
    exact hready
  obtain ⟨ctx, hget, hsock⟩ := (Option.any_eq_true _ _).mp hconn
  refine ⟨party ctx, parties_some hget, fun hnone => ?_⟩
  rw [show ctx.sock = none from hnone] at hsock
  cases hsock

theorem timed_next (h : b.registry.Tidy) (htimed : b.registry.Timed left)
    (hnext : b.registry.Next b'.registry) : b'.registry.Timed (leaving b b' left) := by
  intro c hc q hq
  have hgone' : b'.gone c = true := by
    rw [gone_eq, hq, Option.any_some]
    exact decide_eq_true ((hnext.tidy.suits hq).expiring hc).1
  rcases hnext.enters c hc with ⟨hc, p, q', hp, hq', htime, hinterval⟩ | ⟨p, q', hp, hs, hq', htime⟩
  · cases hq.symm.trans hq'
    have hgone : b.gone c = true := by
      rw [gone_eq, hp, Option.any_some]
      exact decide_eq_true ((h.suits hp).expiring hc).1
    have hleft : leaving b b' left c = left c := if_neg fun hboth => by
      rw [hgone] at hboth
      cases hboth.2
    rw [hleft, htime, hinterval, hnext.limit]
    exact htimed c hc p hp
  · cases hq.symm.trans hq'
    have hgone : b.gone c = false := by
      rw [gone_eq, hp, Option.any_some]
      exact decide_eq_false hs
    have hleft : leaving b b' left c = b.db.nowRealS := if_pos ⟨hgone', hgone⟩
    rw [hleft, hnext.limit]
    exact htime

theorem next_call (h : b.registry.Tidy) (hf : b.registry.Fresh)
    (hready : x.ready b = true) :
    b.registry.Next (b.call env x).registry := by
  cases x with
  | event e =>
    obtain ⟨o, ho, -, hexec⟩ := @registry_exec env e b
    show b.registry.Next (b.exec env e).registry
    rw [hexec]
    exact Registry.next_exec h hf ho fun c hc => Event.open_source hready hc
  | disconnect c =>
    show b.registry.Next (contextDisconnect env c b).registry
    rw [registry_contextDisconnect]
    have hsame : ∀ r', r' = b.registry → b.registry.Next r' := by
      rintro r' rfl
      exact h.kept.next h hf rfl
    cases hp : b.registry.parties c with
    | none =>
      refine hsame _ ?_
      unfold Registry.disconnect
      rw [hp]
    | some p =>
      by_cases hs : p.state = .disconnected
      · refine hsame _ ?_
        unfold Registry.disconnect
        rw [hp]
        exact if_pos hs
      · exact (h.before c).next hf hp hs
  | remove c =>
    have htidy := Registry.tidy_expiryRemove h c
    have ho := Registry.only_expiryRemove c b.registry
    have hkept := h.kept_only ho (Registry.notMem_erase h.expiryNodup)
    exact hkept.next htidy hf rfl

theorem tidy_start (config : Config) (clock : Nat → Reading) :
    (State.dbOpen config clock).registry.Tidy :=
  ⟨nofun, nofun, nofun, nofun, .nil, .nil, .nil⟩

/-- **What holds in every run.** -/
theorem tidy_calls (h : SessionRun env config clock left b) :
    b.registry.Tidy ∧ b.registry.Fresh ∧ b.registry.Timed left := by
  induction h with
  | start => exact ⟨tidy_start config clock, nofun, nofun⟩
  | next x h hready ih =>
    obtain ⟨htidy, hfresh, htimed⟩ := ih
    have hnext := @next_call env _ x htidy hfresh hready
    exact ⟨hnext.tidy, hnext.fresh, timed_next htidy htimed hnext⟩

/-! ## The list and its check -/

theorem expiryTime_eq (b : State) (c : CtxId) : b.expiryTime c = b.registry.expiryTime c := by
  unfold State.expiryTime Registry.expiryTime
  show _ = ((b.contexts.get c).map party).elim 0 _
  cases b.contexts.get c <;> rfl

/-- Whether a client is listed when it loses its connection. -/
theorem mem_expiryList_disconnect (h : b.registry.Tidy) {ctx : Context}
    (hget : b.contexts.get c = some ctx) (hgone : ctx.state ≠ .disconnected)
    (hdis : ctx.state ≠ .disused) :
    c ∈ (contextDisconnect env c b).expiryList ↔
      ctx.sessionExpiryInterval ≠ 0 ∧ ¬ b.endless ctx := by
  have hp := parties_some hget
  have hs := h.suits hp
  obtain ⟨hexpiry, hdelay⟩ := h.notMem hp hgone
  have hdep := Registry.departs_disconnect hp hgone hdis hexpiry hdelay hs.undelayed hs.plain
  show c ∈ (contextDisconnect env c b).registry.expiryList ↔ _
  rw [registry_contextDisconnect]
  generalize b.registry.disconnect c = r' at hdep
  cases hdep with
  | discard hzero => exact ⟨fun hm => absurd hm hexpiry, fun hne => absurd hzero hne.1⟩
  | stay hzero hend =>
    exact ⟨fun hm => absurd hm hexpiry, fun hne => absurd (hend hne.1) hne.2⟩
  | expire hne hend => exact ⟨fun _ => ⟨hne, hend⟩, fun _ => Agenda.mem_insertBefore.mpr (.inl rfl)⟩

theorem expired_fields (p : Party) :
    p.expired.state = .disused ∧ p.expired.id = none ∧ p.expired.sessionExpiryInterval = 0 :=
  ⟨rfl, rfl, (Registry.willClear_fields
    { p with sessionExpiryInterval := 0, willDelayInterval := 0 }).2.1⟩

/-- **Session expiry is exact**: in every run the list is sorted and holds a client once, each
until the smaller of its interval and the limit has passed since it was disconnected; who never
expires is not listed; and a check ends exactly the sessions that are due. -/
theorem session_expiry_exact (h : SessionRun env config clock left b) :
    (b.expiryList.Pairwise fun c d => b.expiryTime c ≤ b.expiryTime d) ∧ b.expiryList.Nodup ∧
    (∀ c ∈ b.expiryList, ∃ ctx, b.contexts.get c = some ctx ∧ ctx.state = .disconnected ∧
      ¬ b.endless ctx ∧ ctx.sessionExpiryTime = left c + b.allowance ctx) ∧
    (∀ c ctx, b.contexts.get c = some ctx → ctx.state ≠ .disconnected → ctx.state ≠ .disused →
      (c ∈ (contextDisconnect env c b).expiryList ↔
        ctx.sessionExpiryInterval ≠ 0 ∧ ¬ b.endless ctx)) ∧
    (b.lastExpiryCheck < b.db.nowRealS →
      let b' := sessionExpiryCheck env b
      b'.lastExpiryCheck = b.db.nowRealS ∧
      b'.expiryList = b.expiryList.filter (fun c => ¬ b.expiryTime c < b.db.nowRealS) ∧
      (∀ c ∈ b.expiryList, b.expiryTime c < b.db.nowRealS →
        c ∈ b'.llForFree ∧ ∃ ctx, b'.contexts.get c = some ctx ∧ ctx.state = .disused ∧
          ctx.id = none ∧ ctx.sessionExpiryInterval = 0) ∧
      ∀ c, ¬ (c ∈ b.expiryList ∧ b.expiryTime c < b.db.nowRealS) →
        (b'.contexts.get c).map party = (b.contexts.get c).map party ∧
          (c ∈ b'.llForFree ↔ c ∈ b.llForFree)) := by
  obtain ⟨htidy, -, htimed⟩ := tidy_calls h
  refine ⟨?_, htidy.expiryNodup, fun c hc => ?_, fun c ctx hget hgone hdis =>
    mem_expiryList_disconnect htidy hget hgone hdis, fun hnow => ?_⟩
  · simp only [expiryTime_eq]
    exact htidy.sorted
  · obtain ⟨p, hp⟩ := htidy.expiring c hc
    obtain ⟨ctx, hget, rfl⟩ := Option.map_eq_some_iff.mp hp
    obtain ⟨hstate, -, -, hend⟩ := (htidy.suits hp).expiring hc
    refine ⟨ctx, hget, hstate, hend, (htimed c hc _ hp).trans ?_⟩
    rw [State.allowance, Nat.min_comm]
    rfl
  · obtain ⟨hended, hlast⟩ := Registry.ended_expiryCheck htidy hnow
    rw [← @registry_sessionExpiryCheck env] at hended hlast
    have hdue : ∀ c ∈ b.expiryList,
        b.registry.expires c = decide (b.expiryTime c < b.db.nowRealS) := by
      intro c hc
      obtain ⟨p, hp⟩ := htidy.expiring c hc
      rw [expiryTime_eq, Registry.expires, Registry.expiryTime, hp]
      rfl
    have hmem : ∀ c, c ∈ b.registry.expiryList.filter b.registry.expires ↔
        c ∈ b.expiryList ∧ b.expiryTime c < b.db.nowRealS := by
      intro c
      rw [List.mem_filter]
      refine and_congr_right fun hc => ?_
      rw [hdue c hc, decide_eq_true_iff]
    have hfree : ∀ c, c ∈ (sessionExpiryCheck env b).llForFree ↔
        (c ∈ b.expiryList ∧ b.expiryTime c < b.db.nowRealS) ∨ c ∈ b.llForFree := by
      intro c
      rw [← hmem c, show (sessionExpiryCheck env b).llForFree = _ from hended.llForFree,
        List.mem_append, List.mem_reverse]
      rfl
    refine ⟨hlast, hended.expiryList.trans (List.filter_congr fun c hc => ?_), fun c hc hlt => ?_,
      fun c hnot => ?_⟩
    · refine decide_eq_decide.mpr (not_congr ((hmem c).trans ?_))
      exact and_iff_right hc
    · refine ⟨(hfree c).mpr (.inl ⟨hc, hlt⟩), ?_⟩
      obtain ⟨p, -, hp⟩ := hended.ended c ((hmem c).mpr ⟨hc, hlt⟩)
      obtain ⟨ctx, hget, hctx⟩ := Option.map_eq_some_iff.mp hp
      obtain ⟨hstate, hid, hinterval⟩ := expired_fields p
      rw [← hctx] at hstate hid hinterval
      exact ⟨ctx, hget, hstate, hid, hinterval⟩
    · refine ⟨hended.others c (mt (hmem c).mp hnot), ?_⟩
      rw [hfree c]
      exact or_iff_right hnot

/-! ### A session of half a minute -/

/-- A client with a session of 30 seconds that leaves at 100; the clock then goes on. -/
def halfMinute : List SessionCall :=
  [.event (.tick 100 100), .event (.accept 3 none),
   .event (.connect 0 .q2
     { clientId := ascii "a", protocol := .mqtt5, isBridge := false, cleanStart := true
       keepalive := 60, properties := [⟨17, .int32 30⟩], will := none, willDelayInterval := 0
       thresholdL := none }),
   .disconnect 0, .event (.tick 131 131)]

theorem session_expiry_half_minute :
    let b := halfMinute.foldl (fun b x => b.call .granting x)
      (State.dbOpen Config.init fun _ => ⟨0, 0, 0⟩)
    b.expiryList = [0] ∧ b.expiryTime 0 = 130 ∧
      (sessionExpiryCheck .granting b).expiryList = [] ∧
      0 ∈ (sessionExpiryCheck .granting b).llForFree := by
  intro b
  have hrun : ∃ left, SessionRun .granting Config.init (fun _ => ⟨0, 0, 0⟩) left b :=
    ⟨_, (((((SessionRun.start.next (.event (.tick 100 100)) (by decide)).next
      (.event (.accept 3 none)) (by decide)).next _ (by decide)).next (.disconnect 0) rfl).next
      (.event (.tick 131 131)) (by decide))⟩
  obtain ⟨left, hrun⟩ := hrun
  obtain ⟨-, -, -, -, hcheck⟩ := session_expiry_exact hrun
  obtain ⟨-, hlist, hended, -⟩ := hcheck (by decide)
  have hb : b.expiryList = [0] ∧ b.expiryTime 0 = 130 := by decide
  refine ⟨hb.1, hb.2, hlist.trans (by decide), (hended 0 ?_ ?_).1⟩
  · rw [hb.1]
    exact List.mem_singleton_self 0
  · decide

end SessionRun

end AdaptiveMqtt.Broker
