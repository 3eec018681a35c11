import AdaptiveMqtt.Broker.LastWill

/-!
# Wills are published once

What should become of a will is read off the events: the first that decides about it says
whether it is to be queued or dropped. The log of the run agrees with that, except where a
CONNECT with `clean_start` finds a will whose delay is not over.
-/

namespace AdaptiveMqtt.Broker

open Lib AdaptiveMqtt.Sub Db

/-! ## What should happen -/

/-- What an event decides about a will. Nothing is said of a session that was not kept when a
CONNECT without `clean_start` takes it over. -/
inductive Verdict where
  | publish
  | cancel
  | unsaid
  deriving DecidableEq, Repr

/-- The CONNECT with which a new connection takes over the client. -/
def Event.takes (b : State) (c : CtxId) : Event → Option ConnectPacket
  | .connect d _ p =>
    if (b.contexts.get d).any (·.state = .new) ∧ (b.contexts.get c).bind (·.id) = some p.clientId
    then some p else none
  | _ => none

/-- What an event decides about the will of a client: a take-over cancels it if the session is
resumed; it is published if the delay or the session is over, and a delay of zero is over when
the connection is lost. -/
def verdict (env : Env) (c : CtxId) (b : State) (e : Event) : Option Verdict :=
  match b.contexts.get c with
  | none => none
  | some ctx =>
    match e.takes b c with
    | some p =>
      some (if p.cleanStart then .publish
        else if ctx.sessionExpiryInterval > 0 then .cancel else .unsaid)
    | none =>
      let due : Bool :=
        match e with
        | .delayCheck => b.lastDelayCheck < b.db.nowRealS ∧
            c ∈ b.delayList.takeWhile (fun d => b.willTime d < b.db.nowRealS)
        | .expiryCheck => b.lastExpiryCheck < b.db.nowRealS ∧ c ∈ b.expiryList ∧
            b.expiryTime c < b.db.nowRealS
        | _ => b.connected c ∧ (b.exec env e).connected c = false ∧ ctx.willDelayInterval = 0
      if due then some .publish else none

/-- A take-over that loses the will: it is to be published, and has a delay. -/
def loses (b : State) (c : CtxId) (e : Event) : Bool :=
  (e.takes b c).any (·.cleanStart) &&
    (b.contexts.get c).any fun ctx => ctx.will.isSome && ctx.willDelayInterval > 0

/-- A DISCONNECT packet of the client. -/
def Event.leaves (c : CtxId) : Event → Bool
  | .disconnect d (some _) => d = c
  | _ => false

/-- A CONNECT packet of the client on its own connection: `handle_connect_error` frees the
will. -/
def Event.repeats (c : CtxId) : Event → Bool
  | .connect d _ _ | .refuse d => d = c
  | _ => false

/-- The first decision in a run. -/
def settle (env : Env) (c : CtxId) : List Event → State → Option Verdict
  | [], _ => none
  | e :: es, b => (verdict env c b e).or (settle env c es (b.exec env e))

def runWills (env : Env) : List Event → State → Wills
  | [], _ => []
  | e :: es, b => e.wills env b ++ runWills env es (b.exec env e)

/-- No event of a run is a take-over that loses the will. -/
def neverLoses (env : Env) (c : CtxId) : List Event → State → Bool
  | [], _ => true
  | e :: es, b => !loses b c e && neverLoses env c es (b.exec env e)

/-! ## While a will waits -/

section Waits

variable {env : Env} {c d found : CtxId} {b : State} {e : Event} {p q : Party} {w : Will}
  {l : List CtxId}

open Registry

theorem silent_disused {r : Registry} (h : Tidy r) (hp : r.parties c = some p)
    (hs : p.state = .disused) : Has Party.Silent c r := by
  intro q hq
  cases hp.symm.trans hq
  obtain ⟨hsock, -, hwill, -⟩ := (h.suits hp).disused hs
  exact ⟨hwill, hsock⟩

theorem expires_registry (d : CtxId) (b : State) :
    b.registry.expires d = (b.contexts.get d).any (·.sessionExpiryTime < b.db.nowRealS) :=
  any_parties d b fun p => p.sessionExpiryTime < b.db.nowRealS

theorem fires_registry (d : CtxId) (b : State) :
    b.registry.fires d = (b.contexts.get d).any (·.willDelayTime < b.db.nowRealS) :=
  any_parties d b fun p => p.willDelayTime < b.db.nowRealS

theorem own_delayWills (hl : l.Nodup) (hp : b.registry.parties c = some p) (hw : p.will = some w)
    (hs : p.state ≠ .disconnecting) (hsock : p.sock = none) (hacl : Permits env p.id w) :
    own c (delayWills env l b) = if c ∈ l.takeWhile b.registry.fires then [(c, w)] else [] := by
  have hlog : ∀ (l : List CtxId) (b : State), delayWills env l b = Agenda.passLog
      (fun b c => b.registry.fires c) (fireWill env) (fun c b => queuedWill env c (undelaying c b))
      l b := by
    intro l
    induction l with
    | nil => exact fun b => rfl
    | cons d l ih =>
      intro b
      unfold delayWills Agenda.passLog
      rw [fires_registry, ih]
  rw [hlog]
  refine Agenda.filter_passLog (I := fun b => b.registry.parties c = some p) (fun d e b he => ?_)
    (fun d b hd => own_queuedWill_ne hd _) (fun d b hd hb => ?_) (fun b hb => ?_)
    (fun l b hb => ?_) hl hp
  · have ho := only_fire d b.registry
    rw [← @registry_fireWill env] at ho
    unfold fires
    rw [ho.parties e he, ho.now]
  · rw [registry_fireWill, (only_fire d b.registry).parties c hd.symm]
    exact hb
  · have hmid : (undelaying c b).registry.parties c = some { p with willDelayInterval := 0 } := by
      have hrem : (b.registry.delayRemove c).parties c = some p := hb
      rw [registry_undelaying, modify_self, hrem, Option.map_some]
    rw [queuedWill_due hmid hw hs rfl hacl]
    exact List.filter_cons_of_pos (by simp)
  · rw [← hlog]
    refine own_delayWills_silent l fun q hq => ?_
    rw [registry_fireWill] at hq
    obtain ⟨x, byId, free, hwill, heq⟩ := fire_place hb
    have hclosed : Has (fun p => p.sock = none) c b.registry := by
      intro y hy
      cases hb.symm.trans hy
      exact hsock
    refine ⟨?_, has_fire trait_closed hclosed c q hq⟩
    rw [heq] at hq
    cases place_self.symm.trans hq
    exact hwill

theorem own_expiryWills (hl : l.Nodup) (hp : b.registry.parties c = some p) (hw : p.will = some w)
    (hs : p.state = .disconnected) (hsock : p.sock = none) (hacl : Permits env p.id w) :
    own c (expiryWills env l b) = if c ∈ l.takeWhile b.registry.expires then [(c, w)] else [] := by
  have hlog : ∀ (l : List CtxId) (b : State), expiryWills env l b = Agenda.passLog
      (fun b c => b.registry.expires c)
      (fun c b => contextAddToDisused c (contextSendWill env c (expiring c b)))
      (fun c b => queuedWill env c (expiring c b)) l b := by
    intro l
    induction l with
    | nil => exact fun b => rfl
    | cons d l ih =>
      intro b
      unfold expiryWills Agenda.passLog
      rw [expires_registry, ih]
  rw [hlog]
  refine Agenda.filter_passLog (I := fun b => b.registry.parties c = some p) (fun d e b he => ?_)
    (fun d b hd => own_queuedWill_ne hd _) (fun d b hd hb => ?_) (fun b hb => ?_)
    (fun l b hb => ?_) hl hp
  · have ho := only_expire d b.registry
    rw [← @registry_expired env] at ho
    unfold expires
    rw [ho.parties e he, ho.now]
  · rw [registry_expired, (only_expire d b.registry).parties c hd.symm]
    exact hb
  · have hmid : (expiring c b).registry.parties c =
        some { p with sessionExpiryInterval := 0, willDelayInterval := 0 } := by
      have hrem : (b.registry.expiryRemove c).parties c = some p := hb
      rw [registry_expiring]
      show ((b.registry.expiryRemove c).modify c _).parties c = _
      rw [modify_self, hrem, Option.map_some]
    have hne : p.state ≠ .disconnecting := fun e => by cases hs.symm.trans e
    rw [queuedWill_due hmid hw hne rfl hacl]
    exact List.filter_cons_of_pos (by simp)
  · rw [← hlog]
    refine own_expiryWills_silent l fun q hq => ?_
    rw [registry_expired] at hq
    have heq := expire_eq hb fun e => by cases hs.symm.trans e
    rw [heq] at hq
    cases place_self.symm.trans hq
    have hclear := willClear_cleared
      (p := { p with sessionExpiryInterval := 0, willDelayInterval := 0 }) fun _ => rfl
    have hrest := willClear_rest { p with sessionExpiryInterval := 0, willDelayInterval := 0 }
    exact ⟨hclear.1, hrest.1.trans hsock⟩

/-! ### Take-over -/

/-- After an error only the client itself is disconnected. -/
theorem only_afterError (fail : Bool) (d : CtxId) (r : Registry) : Only d r (r.afterError fail d) := by
  unfold Registry.afterError
  split
  · exact only_disconnect d r
  · exact .refl d r

theorem connect_other {r : Registry} {x : Party} {o : Outcome} {packet : ConnectPacket}
    (h : Sound r) (hd : r.parties d = some x) (hopen : x.sock ≠ none) (hne : c ≠ d)
    (hp : r.parties c = some p) (hnot : x.state = .new → p.id ≠ some packet.clientId) :
    ((r.connect o d packet).afterError o.fail d).parties c = some p := by
  rw [(only_afterError o.fail d _).parties c hne]
  unfold connect
  rw [hd, Option.any_some]
  by_cases hnew : x.state = .new
  · rw [if_pos (decide_eq_true hnew)]
    simp only
    have hread := only_modify d (·.connect packet o.interval) r
    have hx₀ : (r.modify d (·.connect packet o.interval)).parties d =
        some (x.connect packet o.interval) := by rw [modify_self, hd, Option.map_some]
    have hids : (r.modify d (·.connect packet o.interval)).contextsById = r.contextsById := rfl
    have hread' := before_connectPacket h.tidy hd hopen packet o.interval (h.fresh hd hnew).2.1
    generalize r.modify d (·.connect packet o.interval) = r₀ at hread hx₀ hids hread'
    have hp₀ : r₀.parties c = some p := (hread.parties c hne).trans hp
    have hover : ((r₀.contextsById packet.clientId).elim r₀ (r₀.takeOver · d)).parties c =
        some p := by
      cases hfound : r₀.contextsById packet.clientId with
      | none => exact hp₀
      | some found =>
        rw [hids] at hfound
        obtain ⟨-, old, hold, hid⟩ := h.named.of_mem hfound
        have hcf : c ≠ found := by
          rintro rfl
          cases hp.symm.trans hold
          exact hnot hnew hid
        have hfd : found ≠ d := by
          rintro rfl
          cases hd.symm.trans hold
          exact nomatch (h.fresh hd hnew).1.symm.trans hid
        have hold₀ : r₀.parties found = some old := (hread.parties found hfd).trans hold
        exact ((tidy_takeOver hread'.tidy hold₀ hx₀).2.1.parties c hcf).trans hp₀
    generalize (r₀.contextsById packet.clientId).elim r₀ (r₀.takeOver · d) = r₁ at hover
    split
    · have ho := only_modify d (·.setState .active)
        { r₁ with contextsById := Function.update r₁.contextsById packet.clientId (some d) }
      exact (ho.parties c hne).trans hover
    · exact hover
  · rw [if_neg (by simpa using hnew)]
    exact ((only_modify d (·.refused) r).parties c hne).trans hp

/-- A CONNECT takes over the client that has its id. -/
theorem connect_found {r : Registry} {x : Party} {o : Outcome} {packet : ConnectPacket}
    (h : Sound r) (hd : r.parties d = some x) (hopen : x.sock ≠ none) (hnew : x.state = .new)
    (hp : r.parties c = some p) (hid : p.id = some packet.clientId) :
    c ≠ d ∧ ∃ q, ((r.connect o d packet).afterError o.fail d).parties c = some q ∧
      q.state = .disused := by
  have hne : c ≠ d := by
    rintro rfl
    cases hd.symm.trans hp
    exact nomatch (h.fresh hd hnew).1.symm.trans hid
  refine ⟨hne, ?_⟩
  rw [(only_afterError o.fail d _).parties c hne]
  have hx₀ : (r.modify d (·.connect packet o.interval)).parties d =
      some (x.connect packet o.interval) := by rw [modify_self, hd, Option.map_some]
  have hp₀ : (r.modify d (·.connect packet o.interval)).parties c = some p :=
    ((only_modify d _ r).parties c hne).trans hp
  have hfound : (r.modify d (·.connect packet o.interval)).contextsById packet.clientId = some c :=
    (h.named.mem nofun hp hid).1
  have hread := before_connectPacket h.tidy hd hopen packet o.interval (h.fresh hd hnew).2.1
  unfold connect
  rw [hd, Option.any_some, if_pos (decide_eq_true hnew)]
  simp only
  generalize r.modify d (·.connect packet o.interval) = r₀ at hx₀ hp₀ hfound hread
  obtain ⟨-, -, q, hq, hdis⟩ := tidy_takeOver hread.tidy hp₀ hx₀
  rw [hfound, Option.elim_some]
  split
  · have ho := only_modify d (·.setState .active) { r₀.takeOver c d with
      contextsById := Function.update (r₀.takeOver c d).contextsById packet.clientId (some d) }
    exact ⟨q, (ho.parties c hne).trans hq, hdis⟩
  · exact ⟨q, hq, hdis⟩

/-- The will of an old connection is due when its session ends. -/
def Party.Due (p : Party) (packet : ConnectPacket) : Prop :=
  (p.protocol = .mqtt5 ∧ p.sessionExpiryInterval = 0) ∨
    (p.protocol ≠ .mqtt5 ∧ p.cleanStart = true) ∨ packet.cleanStart = true

theorem disconnectWills_none (h : ∀ p, b.registry.parties c = some p → p.will = none) :
    disconnectWills env c b = [] := by
  unfold disconnectWills
  split
  · rfl
  · split
    · rfl
    · refine queuedWill_none fun p hp => ?_
      rw [registry_socketClose, modify_self] at hp
      obtain ⟨q, hq, rfl⟩ := Option.map_eq_some_iff.mp hp
      exact h q hq

/-- What a take-over queues. -/
theorem connectWills_found {x : Party} {packet : ConnectPacket} (h : b.registry.Sound)
    (hd : b.registry.parties d = some x) (hnew : x.state = .new) (hne : c ≠ d)
    (hp : b.registry.parties c = some p) (hid : p.id = some packet.clientId) :
    ∃ b' : State, b'.registry.parties c = some p ∧
      (p.Due packet → connectWills env d packet b = queuedWill env c b') ∧
      (¬ p.Due packet → connectWills env d packet b = []) := by
  obtain ⟨ctx, hctx, rfl⟩ := Option.map_eq_some_iff.mp hd
  obtain ⟨old, hold, rfl⟩ := Option.map_eq_some_iff.mp hp
  have hctx₁ : (b.modifyClient d (·.connect packet)).contexts.get d = some (ctx.connect packet) := by
    show (b.contexts.modify d _).get d = _
    rw [Heap.get_modify, if_pos rfl, hctx]
    rfl
  have hold₁ : (b.modifyClient d (·.connect packet)).contexts.get c = some old := by
    show (b.contexts.modify d _).get c = _
    rw [Heap.get_modify, if_neg hne, hold]
  have hfound : (b.modifyClient d (·.connect packet)).contextsById.get packet.clientId = some c :=
    (h.named.mem nofun hp hid).1
  have hwills : connectWills env d packet b =
      takeOverWills env c d (b.modifyClient d (·.connect packet)) := by
    unfold connectWills
    rw [hctx, Option.any_some, if_pos (decide_eq_true (show ctx.state = .new from hnew))]
    simp only
    rw [hfound, Option.elim_some]
  generalize b.modifyClient d (·.connect packet) = b₁ at hctx₁ hold₁ hfound hwills
  have hp₁ : (superseded c d b₁).registry.parties c = some (party old) := by
    rw [registry_superseded]
    exact parties_some hold₁
  have hrelieved : ∀ b : State, disconnectWills env c (relieved c b) = [] := by
    intro b
    refine disconnectWills_none fun p hp => ?_
    rw [registry_relieved, modify_self] at hp
    obtain ⟨q, -, rfl⟩ := Option.map_eq_some_iff.mp hp
    exact (takenOver_fields q).2.2.1
  have hdue : willDue old (ctx.connect packet) = true ↔ (party old).Due packet := by
    unfold willDue
    rw [decide_eq_true_iff]
    rfl
  refine ⟨superseded c d b₁, hp₁, fun h => ?_, fun h => ?_⟩
  · rw [hwills]
    unfold takeOverWills
    rw [hold₁, hctx₁]
    simp only
    rw [if_pos (hdue.mpr h), hrelieved, List.append_nil]
  · rw [hwills]
    unfold takeOverWills
    rw [hold₁, hctx₁]
    simp only
    rw [if_neg (h ∘ hdue.mp), hrelieved, List.append_nil]

theorem own_connectWills_other {x : Party} {packet : ConnectPacket} (h : b.registry.Sound)
    (hd : b.registry.parties d = some x) (hp : b.registry.parties c = some p)
    (hnot : x.state = .new → p.id ≠ some packet.clientId) :
    own c (connectWills env d packet b) = [] := by
  obtain ⟨ctx, hctx, rfl⟩ := Option.map_eq_some_iff.mp hd
  unfold connectWills
  rw [hctx, Option.any_some]
  split
  · rename_i hnew
    simp only
    have hids : (b.modifyClient d (·.connect packet)).contextsById.get packet.clientId =
        b.registry.contextsById packet.clientId := rfl
    rw [hids]
    cases hfound : b.registry.contextsById packet.clientId with
    | none => rfl
    | some found =>
      obtain ⟨-, old, hold, hid⟩ := h.named.of_mem hfound
      have hcf : found ≠ c := by
        rintro rfl
        cases hp.symm.trans hold
        exact hnot (of_decide_eq_true hnew) hid
      exact own_takeOverWills_ne hcf d _
  · rfl

/-! ### Other events -/

/-- Events that have nothing to do with a client. -/
theorem exec_aside {r : Registry} {o : Outcome} (h : Sound r) (hp : r.parties c = some p)
    (hs : p.state ≠ .disused)
    (hsource : ∀ d, e.source = some d → c ≠ d ∧ ∃ x, r.parties d = some x ∧ x.sock ≠ none)
    (htakes : ∀ d maxQos packet, e = .connect d maxQos packet → ∀ x, r.parties d = some x →
      x.state = .new → p.id ≠ some packet.clientId)
    (hexpiry : e ≠ .expiryCheck) (hdelay : e ≠ .delayCheck) :
    (r.exec o e).parties c = some p := by
  have herror : ∀ {d}, c ≠ d → (r.afterError o.fail d).parties c = some p := fun hd =>
    ((only_afterError o.fail _ r).parties c hd).trans hp
  have hleave : ∀ {d f}, c ≠ d → ((r.modify d f).disconnect d).parties c = some p := fun hd =>
    ((only_disconnect _ _).parties c hd).trans (((only_modify _ _ r).parties c hd).trans hp)
  cases e with
  | accept sock mountPoint =>
    have hne : c ≠ r.nextContext := fun e => absurd (h.tidy.suits hp).allocated (e ▸ lt_irrefl _)
    exact (Function.update_of_ne hne ..).trans hp
  | connect d maxQos packet =>
    obtain ⟨hd, x, hx, hopen⟩ := hsource d rfl
    exact connect_other h hx hopen hd hp (htakes d maxQos packet rfl x hx)
  | refuse d => exact hleave (hsource d rfl).1
  | disconnect d packet => exact hleave (hsource d rfl).1
  | tick nowS nowRealS => exact hp
  | expiryCheck => exact absurd rfl hexpiry
  | delayCheck => exact absurd rfl hdelay
  | freeDisused =>
    have hnot : c ∉ r.llForFree := fun hm => hs ((h.tidy.suits hp).doomed hm)
    show r.freeDisused.parties c = some p
    rw [freeDisused_eq h.tidy]
    exact (if_neg hnot).trans hp
  | sysTree topic payload => exact hp
  | publish d packet => exact herror (hsource d rfl).1
  | pubrel d packet => exact herror (hsource d rfl).1
  | ack d type packet => exact herror (hsource d rfl).1
  | pubrec d packet => exact herror (hsource d rfl).1
  | subscribe d packet => exact herror (hsource d rfl).1
  | unsubscribe d packet => exact herror (hsource d rfl).1
  | write d => exact herror (hsource d rfl).1

theorem own_freeWills_notMem (hc : c ∉ l) (b : State) : own c (freeWills env l b) = [] := by
  induction l generalizing b with
  | nil => rfl
  | cons d l ih =>
    obtain ⟨hd, hl⟩ := not_or.mp (mt List.mem_cons.mpr hc)
    unfold freeWills cleanupWills
    rw [own_append, own_queuedWill_ne (Ne.symm hd), ih hl]
    rfl

theorem own_wills_aside (h : b.registry.Sound) (hp : b.registry.parties c = some p)
    (hs : p.state ≠ .disused)
    (hsource : ∀ d, e.source = some d → c ≠ d ∧ ∃ x, b.registry.parties d = some x ∧ x.sock ≠ none)
    (htakes : ∀ d maxQos packet, e = .connect d maxQos packet → ∀ x,
      b.registry.parties d = some x → x.state = .new → p.id ≠ some packet.clientId)
    (hexpiry : e ≠ .expiryCheck) (hdelay : e ≠ .delayCheck) : own c (e.wills env b) = [] := by
  have hne : ∀ {d}, e.source = some d → d ≠ c := fun hd => (hsource _ hd).1.symm
  cases e with
  | accept sock mountPoint => rfl
  | connect d maxQos packet =>
    obtain ⟨hd, x, hx, -⟩ := hsource d rfl
    show own c (connectWills env d packet b ++ errorWills env d _) = []
    rw [own_append, own_errorWills_ne hd.symm, List.append_nil]
    exact own_connectWills_other h hx hp (htakes d maxQos packet rfl x hx)
  | refuse d => exact own_disconnectWills_ne (hne rfl) _
  | publish d p => exact own_packetWills (hne rfl) _
  | pubrel d p => exact own_packetWills (hne rfl) _
  | ack d type p => exact own_packetWills (hne rfl) _
  | pubrec d p => exact own_packetWills (hne rfl) _
  | subscribe d p => exact own_packetWills (hne rfl) _
  | unsubscribe d p => exact own_packetWills (hne rfl) _
  | disconnect d packet => exact own_disconnectWills_ne (hne rfl) _
  | write d => exact own_errorWills_ne (hne rfl) _
  | tick nowS nowRealS => rfl
  | expiryCheck => exact absurd rfl hexpiry
  | delayCheck => exact absurd rfl hdelay
  | freeDisused =>
    have hnot : c ∉ b.registry.llForFree := fun hm => hs ((h.tidy.suits hp).doomed hm)
    exact own_freeWills_notMem hnot _
  | sysTree topic payload => rfl

/-! ### One event -/

theorem takes_some {packet : ConnectPacket} (hp : b.registry.parties c = some p)
    (h : e.takes b c = some packet) : ∃ d maxQos x, e = .connect d maxQos packet ∧
      b.registry.parties d = some x ∧ x.state = .new ∧ p.id = some packet.clientId := by
  obtain ⟨ctx, hget, rfl⟩ := Option.map_eq_some_iff.mp hp
  cases e with
  | connect d maxQos packet' =>
    unfold Event.takes at h
    simp only at h
    split at h
    · rename_i hboth
      obtain ⟨hnew, hid⟩ := hboth
      obtain ⟨x, hx, hstate⟩ := (Option.any_eq_true _ _).mp hnew
      cases h
      rw [hget] at hid
      exact ⟨d, maxQos, party x, rfl, parties_some hx, of_decide_eq_true hstate, hid⟩
    · cases h
  | _ => cases h

theorem takes_none (hp : b.registry.parties c = some p) (h : e.takes b c = none) :
    ∀ d maxQos packet, e = .connect d maxQos packet → ∀ x, b.registry.parties d = some x →
      x.state = .new → p.id ≠ some packet.clientId := by
  rintro d maxQos packet rfl x hx hnew hid
  obtain ⟨ctx, hget, rfl⟩ := Option.map_eq_some_iff.mp hp
  obtain ⟨y, hy, rfl⟩ := Option.map_eq_some_iff.mp hx
  have hboth : (b.contexts.get d).any (·.state = .new) = true ∧
      (b.contexts.get c).bind (·.id) = some packet.clientId := by
    rw [hy, hget]
    exact ⟨decide_eq_true hnew, hid⟩
  exact nomatch (if_pos hboth).symm.trans h

/-- The will of the client waits for its delay or for the end of the session. -/
structure Waits (env : Env) (c : CtxId) (w : Will) (b : State) : Prop where
  sound : b.registry.Sound
  waiting : ∃ p, b.registry.parties c = some p ∧ p.state = .disconnected ∧ p.will = some w ∧
    Permits env p.id w

/-- What a decision means for the log, and for the client after it. -/
def Obeys (env : Env) (c : CtxId) (w : Will) (log : Wills) (b : State) : Option Verdict → Prop
  | none => log = [] ∧ Waits env c w b
  | some .publish => log = [(c, w)] ∧ Has Party.Silent c b.registry
  | some .cancel => log = [] ∧ Has Party.Silent c b.registry
  | some .unsaid => Has Party.Silent c b.registry

theorem verdict_takes {ctx : Context} {packet : ConnectPacket} (hget : b.contexts.get c = some ctx)
    (h : e.takes b c = some packet) :
    verdict env c b e = some (if packet.cleanStart then .publish
      else if ctx.sessionExpiryInterval > 0 then .cancel else .unsaid) := by
  unfold verdict
  rw [hget]
  simp only
  rw [h]

/-- A new connection takes over the client. -/
theorem obeys_takes {packet : ConnectPacket} (h : Waits env c w b) (hready : e.ready b = true)
    (hlose : loses b c e = false) (ht : e.takes b c = some packet) :
    Obeys env c w (own c (e.wills env b)) (b.exec env e) (verdict env c b e) := by
  obtain ⟨p, hp, hs, hw, -⟩ := h.waiting
  have hsuits := h.sound.tidy.suits hp
  have hlisted : c ∈ b.registry.delayList := hsuits.pending hs fun e => nomatch hw.symm.trans e
  have hdelay := (hsuits.delaying hlisted).2.2.2.2
  obtain ⟨d, maxQos, x, rfl, hx, hnew, hid⟩ := takes_some hp ht
  obtain ⟨y, hy, hopen⟩ := Event.open_source hready rfl
  cases hx.symm.trans hy
  obtain ⟨o, -, -, hexec⟩ := @registry_exec env (.connect d maxQos packet) b
  obtain ⟨hne, q, hq, hdis⟩ := connect_found (o := o) h.sound hx hopen hnew hp hid
  have hsilent : Has Party.Silent c (b.exec env (.connect d maxQos packet)).registry := by
    refine silent_disused (sound_next h.sound hready).tidy ?_ hdis
    rw [hexec]
    exact hq
  have hlog : own c ((Event.connect d maxQos packet).wills env b) = [] := by
    obtain ⟨b', hp', hdue, hnot⟩ : ∃ b' : State, b'.registry.parties c = some p ∧
        (p.Due packet → connectWills env d packet b = queuedWill env c b') ∧
        (¬ p.Due packet → connectWills env d packet b = []) :=
      connectWills_found h.sound hx hnew hne hp hid
    show own c (connectWills env d packet b ++ errorWills env d _) = []
    rw [own_append, own_errorWills_ne hne.symm, List.append_nil]
    by_cases hd : p.Due packet
    · rw [hdue hd, queuedWill_delay hp' hdelay]
      rfl
    · rw [hnot hd]
      rfl
  obtain ⟨ctx, hget, rfl⟩ := Option.map_eq_some_iff.mp hp
  have hstart : packet.cleanStart = false := by
    have hwilling : (b.contexts.get c).any
        (fun ctx => ctx.will.isSome && decide (ctx.willDelayInterval > 0)) = true := by
      rw [hget, Option.any_some, show ctx.will = some w from hw]
      exact decide_eq_true hdelay
    unfold loses at hlose
    rw [ht, hwilling, Bool.and_true] at hlose
    exact hlose
  rw [verdict_takes hget ht, hstart, if_neg Bool.false_ne_true]
  split
  · exact ⟨hlog, hsilent⟩
  · exact hsilent

theorem obeys_delayCheck (h : Waits env c w b) :
    Obeys env c w (own c (Event.delayCheck.wills env b)) (b.exec env .delayCheck)
      (verdict env c b .delayCheck) := by
  obtain ⟨p, hp, hs, hw, hacl⟩ := h.waiting
  have htidy := h.sound.tidy
  have hsock := (htidy.suits hp).closed hs
  have hnext : (b.exec env .delayCheck).registry.Sound := sound_next h.sound rfl
  have hreg : (b.exec env .delayCheck).registry = b.registry.delayCheck :=
    registry_willDelayCheck b
  have hfires : b.delayList.takeWhile (fun d => b.willTime d < b.db.nowRealS) =
      b.registry.delayList.takeWhile b.registry.fires := by
    refine Agenda.takeWhile_congr fun d hd => ?_
    obtain ⟨x, hx⟩ := htidy.delaying d hd
    rw [willTime_registry, fires, willTime, hx]
    rfl
  have hverdict : verdict env c b .delayCheck = if b.lastDelayCheck < b.db.nowRealS ∧
      c ∈ b.registry.delayList.takeWhile b.registry.fires then some .publish else none := by
    obtain ⟨ctx, hget, -⟩ := Option.map_eq_some_iff.mp hp
    unfold verdict
    rw [hget, ← hfires]
    simp only [Event.takes, decide_eq_true_eq]
  rw [hverdict]
  by_cases hnow : b.lastDelayCheck < b.db.nowRealS
  · have hlog : own c (Event.delayCheck.wills env b) =
        if c ∈ b.registry.delayList.takeWhile b.registry.fires then [(c, w)] else [] := by
      show own c (if b.db.nowRealS ≤ b.lastDelayCheck then _ else _) = _
      rw [if_neg (not_le.mpr hnow)]
      exact own_delayWills (b := { b with lastDelayCheck := b.db.nowRealS }) htidy.delayNodup hp hw
        (fun e => by cases hs.symm.trans e) hsock hacl
    have hend := fired_takeWhile htidy.delaying htidy.delayNodup hnow
    rw [← hreg] at hend
    rw [hlog]
    by_cases hc : c ∈ b.registry.delayList.takeWhile b.registry.fires
    · rw [if_pos hc, if_pos ⟨hnow, hc⟩]
      have hclosed : Has (fun p => p.sock = none) c b.registry := by
        intro y hy
        cases hp.symm.trans hy
        exact hsock
      have hafter : Has (fun p => p.sock = none) c b.registry.delayCheck :=
        has_exec (o := ⟨0, true, false⟩) (e := .delayCheck) trait_closed hclosed
          (fun he => absurd (htidy.suits hp).allocated (he ▸ lt_irrefl _)) (fun h => by cases h)
          (fun h => by cases h) (fun _ _ h => by cases h)
      obtain ⟨q, hq, hnone⟩ := hend.fired c hc
      refine ⟨rfl, fun x hx => ?_⟩
      cases hq.symm.trans hx
      rw [hreg] at hq
      exact ⟨hnone, hafter q hq⟩
    · rw [if_neg hc, if_neg fun hboth => hc hboth.2]
      exact ⟨rfl, hnext, p, (hend.others c hc).trans hp, hs, hw, hacl⟩
  · rw [if_neg fun hboth => hnow hboth.1]
    have hsame : b.exec env .delayCheck = b := if_pos (not_lt.mp hnow)
    rw [hsame]
    refine ⟨?_, h⟩
    show own c (if b.db.nowRealS ≤ b.lastDelayCheck then _ else _) = _
    rw [if_pos (not_lt.mp hnow)]
    rfl

theorem obeys_expiryCheck (h : Waits env c w b) :
    Obeys env c w (own c (Event.expiryCheck.wills env b)) (b.exec env .expiryCheck)
      (verdict env c b .expiryCheck) := by
  obtain ⟨p, hp, hs, hw, hacl⟩ := h.waiting
  have htidy := h.sound.tidy
  have hsock := (htidy.suits hp).closed hs
  have hnext : (b.exec env .expiryCheck).registry.Sound := sound_next h.sound rfl
  have hreg : (b.exec env .expiryCheck).registry = b.registry.expiryCheck :=
    registry_sessionExpiryCheck b
  have hdue : c ∈ b.registry.expiryList.filter b.registry.expires ↔
      c ∈ b.expiryList ∧ b.expiryTime c < b.db.nowRealS := by
    rw [List.mem_filter]
    refine and_congr_right fun hc => ?_
    rw [htidy.expires c hc, decide_eq_true_iff, expiryTime_eq]
    exact Iff.rfl
  have hverdict : verdict env c b .expiryCheck = if b.lastExpiryCheck < b.db.nowRealS ∧
      c ∈ b.expiryList ∧ b.expiryTime c < b.db.nowRealS then some .publish else none := by
    obtain ⟨ctx, hget, -⟩ := Option.map_eq_some_iff.mp hp
    unfold verdict
    rw [hget]
    simp only [Event.takes, decide_eq_true_eq]
  rw [hverdict]
  by_cases hnow : b.lastExpiryCheck < b.db.nowRealS
  · have hlog : own c (Event.expiryCheck.wills env b) =
        if c ∈ b.registry.expiryList.filter b.registry.expires then [(c, w)] else [] := by
      show own c (if b.db.nowRealS ≤ b.lastExpiryCheck then _ else _) = _
      rw [if_neg (not_le.mpr hnow), ← htidy.dueFirst.takeWhile]
      exact own_expiryWills (b := { b with lastExpiryCheck := b.db.nowRealS }) htidy.expiryNodup hp
        hw hs hsock hacl
    have hend := (ended_expiryCheck htidy hnow).1
    rw [← hreg] at hend
    rw [hlog]
    by_cases hc : c ∈ b.registry.expiryList.filter b.registry.expires
    · rw [if_pos hc, if_pos ⟨hnow, hdue.mp hc⟩]
      obtain ⟨q, -, hq⟩ := hend.ended c hc
      exact ⟨rfl, silent_disused hnext.tidy hq rfl⟩
    · rw [if_neg hc, if_neg fun hboth => hc (hdue.mpr hboth.2)]
      exact ⟨rfl, hnext, p, (hend.others c hc).trans hp, hs, hw, hacl⟩
  · rw [if_neg fun hboth => hnow hboth.1]
    have hsame : b.exec env .expiryCheck = b := if_pos (not_lt.mp hnow)
    rw [hsame]
    refine ⟨?_, h⟩
    show own c (if b.db.nowRealS ≤ b.lastExpiryCheck then _ else _) = _
    rw [if_pos (not_lt.mp hnow)]
    rfl

/-- **An event does with a will that waits what it decides.** -/
theorem waits_step (h : Waits env c w b) (hready : e.ready b = true) (hlose : loses b c e = false) :
    Obeys env c w (own c (e.wills env b)) (b.exec env e) (verdict env c b e) := by
  cases ht : e.takes b c with
  | some packet => exact obeys_takes h hready hlose ht
  | none =>
    by_cases hdelay : e = .delayCheck
    · subst hdelay
      exact obeys_delayCheck h
    by_cases hexpiry : e = .expiryCheck
    · subst hexpiry
      exact obeys_expiryCheck h
    obtain ⟨p, hp, hs, hw, hacl⟩ := h.waiting
    have hsock := (h.sound.tidy.suits hp).closed hs
    have hdis : p.state ≠ .disused := fun e => nomatch hs.symm.trans e
    have hsource : ∀ d, e.source = some d →
        c ≠ d ∧ ∃ x, b.registry.parties d = some x ∧ x.sock ≠ none := by
      intro d hd
      obtain ⟨x, hx, hopen⟩ := Event.open_source hready hd
      refine ⟨fun e => ?_, x, hx, hopen⟩
      subst e
      cases hp.symm.trans hx
      exact hopen hsock
    obtain ⟨o, -, -, hexec⟩ := @registry_exec env e b
    have hnext : (b.exec env e).registry.Sound := sound_next h.sound hready
    have hp' : (b.exec env e).registry.parties c = some p := by
      rw [hexec]
      exact exec_aside h.sound hp hdis hsource (takes_none hp ht) hexpiry hdelay
    have hverdict : verdict env c b e = none := by
      obtain ⟨ctx, hget, rfl⟩ := Option.map_eq_some_iff.mp hp
      have hconn : b.connected c = false := by
        unfold State.connected
        rw [hget, Option.any_some, show ctx.sock = none from hsock]
        rfl
      unfold verdict
      rw [hget]
      simp only
      rw [ht, hconn]
      simp
    rw [hverdict]
    exact ⟨own_wills_aside h.sound hp hdis hsource (takes_none hp ht) hexpiry hdelay, hnext, p, hp',
      hs, hw, hacl⟩

end Waits

/-! ## The loss of the connection -/

section Loss

variable {env : Env} {c d : CtxId} {b b' : State} {e : Event} {p : Party} {w : Will}

open Registry

/-- The client is connected and has a will. -/
structure Armed (env : Env) (c : CtxId) (w : Will) (p : Party) (b : State) : Prop where
  sound : b.registry.Sound
  clean : Has Party.Clean c b.registry
  get : b.registry.parties c = some p
  sock : p.sock ≠ none
  will : p.will = some w
  permits : Permits env p.id w

theorem Armed.active (h : Armed env c w p b) : p.state = .active := by
  have hs := h.sound.tidy.suits h.get
  rcases h.sound.rests h.get with hnew | hactive | hgone | hdis
  · exact nomatch h.will.symm.trans (h.sound.fresh h.get hnew).2.1
  · exact hactive
  · exact absurd (hs.closed hgone) h.sock
  · exact absurd (hs.disused hdis).1 h.sock

theorem connected_eq (b : State) (c : CtxId) :
    b.connected c = (b.registry.parties c).any (·.sock.isSome) :=
  (any_parties c b fun p => p.sock.isSome).symm

/-- The connection is not lost as long as the client stays as it is. -/
theorem Armed.stays (h : Armed env c w p b) (hp : b'.registry.parties c = some p) :
    b'.connected c = true := by
  rw [connected_eq, hp, Option.any_some]
  exact Option.isSome_iff_ne_none.mpr h.sock

/-- `context__disconnect` sends the will or lets it wait. -/
theorem disconnect_armed (h : Armed env c w p b) (hb : b'.registry = b.registry) :
    own c (disconnectWills env c b') = (if p.willDelayInterval = 0 then [(c, w)] else []) ∧
      if p.willDelayInterval = 0 then Has Party.Silent c (b.registry.disconnect c)
      else ∃ q, (b.registry.disconnect c).parties c = some q ∧ q.state = .disconnected ∧
        q.will = some w ∧ q.id = p.id := by
  have hs := h.sound.tidy.suits h.get
  have hstate := h.active
  have hgone : p.state ≠ .disconnected := fun e => nomatch hstate.symm.trans e
  have hdis : p.state ≠ .disused := fun e => nomatch hstate.symm.trans e
  have hne : p.state ≠ .disconnecting := fun e => nomatch hstate.symm.trans e
  obtain ⟨hexpiry, hdelay⟩ := h.sound.tidy.notMem h.get hgone
  have hdep := departs_disconnect h.get hgone hdis hexpiry hdelay hs.undelayed hs.plain
  have hp' : (b'.modifyClient c (·.socketClose)).registry.parties c = some p.socketClose := by
    rw [registry_socketClose, modify_self, hb, h.get, Option.map_some]
  have hlog : disconnectWills env c b' = queuedWill env c (b'.modifyClient c (·.socketClose)) := by
    obtain ⟨ctx, hget, hctx⟩ := Option.map_eq_some_iff.mp ((congrArg (·.parties c) hb).trans h.get)
    unfold disconnectWills
    rw [hget]
    refine if_neg ?_
    show (party ctx).state ≠ .disconnected
    rw [hctx]
    exact hgone
  rw [hlog]
  by_cases hzero : p.willDelayInterval = 0
  · rw [if_pos hzero, if_pos hzero, queuedWill_due hp' h.will hne hzero h.permits]
    refine ⟨List.filter_cons_of_pos (by simp), fun q hq => ?_⟩
    have hnot : ¬ p.Delays := fun hd => absurd hzero (Nat.ne_of_gt hd.2.2)
    have hsilent : (p.gone b.registry.now).Silent :=
      ⟨(gone_cleared hnot hs.undelayed).1, (gone_fields _ p).1⟩
    generalize b.registry.disconnect c = r' at hdep hq
    cases hdep <;> cases place_self.symm.trans hq <;> exact hsilent
  · rw [if_neg hzero, if_neg hzero, queuedWill_delay hp' (Nat.pos_of_ne_zero hzero)]
    refine ⟨rfl, ?_⟩
    have hdelays : p.Delays := ⟨h.will ▸ rfl, hne, Nat.pos_of_ne_zero hzero⟩
    have hkept : (p.gone b.registry.now).will = some w ∧ (p.gone b.registry.now).id = p.id := by
      rw [gone_delays hdelays]
      exact ⟨h.will, rfl⟩
    generalize b.registry.disconnect c = r' at hdep
    cases hdep with
    | discard _ hnot => exact absurd hdelays hnot
    | stay => exact ⟨_, place_self, rfl, hkept⟩
    | expire => exact ⟨_, place_self, rfl, hkept⟩

/-- The loss itself decides about a will without a delay. -/
theorem obeys_disconnect {log : Wills} (h : Armed env c w p b)
    (hnext : b'.registry.Sound) (hreg : b'.registry = b.registry.disconnect c)
    (hlog : ∃ b'' : State, b''.registry = b.registry ∧ log = disconnectWills env c b'') :
    Obeys env c w (own c log) b' (if p.willDelayInterval = 0 then some .publish else none) := by
  obtain ⟨b'', hb, rfl⟩ := hlog
  obtain ⟨hown, hafter⟩ := disconnect_armed h hb
  rw [hown]
  by_cases hzero : p.willDelayInterval = 0
  · rw [if_pos hzero] at hafter
    rw [if_pos hzero, if_pos hzero]
    refine ⟨rfl, ?_⟩
    rw [hreg]
    exact hafter
  · rw [if_neg hzero] at hafter
    obtain ⟨q, hq, hs, hw, hid⟩ := hafter
    rw [if_neg hzero, if_neg hzero]
    exact ⟨rfl, hnext, q, hreg ▸ hq, hs, hw, hid ▸ h.permits⟩

/-- An error that does not end the connection is none. -/
theorem lost_afterError {r : Rc × State} (h : Armed env c w p b) (hr : r.2.registry = b.registry)
    (hlost : (afterError env c r).connected c = false) :
    (afterError env c r).registry = b.registry.disconnect c ∧
      errorWills env c r = disconnectWills env c r.2 := by
  unfold afterError errorWills at *
  by_cases hrc : r.1 ≠ Rc.success
  · rw [if_pos hrc, if_pos hrc, registry_contextDisconnect, hr]
    exact ⟨rfl, rfl⟩
  · rw [if_neg hrc] at hlost
    have hp : r.2.registry.parties c = some p := hr ▸ h.get
    exact nomatch (h.stays hp).symm.trans hlost

theorem lost_handlePacket {r : Rc × State} (h : Armed env c w p b)
    (hr : r.2.registry = b.registry) (hlost : (handlePacket env c r).connected c = false) :
    (handlePacket env c r).registry = b.registry.disconnect c ∧
      ∃ b' : State, b'.registry = b.registry ∧ packetWills env c r = disconnectWills env c b' := by
  have hsent := (@registry_sendDisconnect env r.1 c r.2).trans hr
  obtain ⟨hreg, hlog⟩ := lost_afterError (r := (r.1, (r.2.onClient c (sendDisconnect env r.1)).2)) h
    hsent hlost
  exact ⟨hreg, _, hsent, hlog⟩

/-- A packet of the client, or the end of its socket. -/
theorem lost_source (h : Armed env c w p b) (hsource : e.source = some c)
    (hleaves : e.leaves c = false) (hrepeats : e.repeats c = false)
    (hlost : (b.exec env e).connected c = false) :
    (b.exec env e).registry = b.registry.disconnect c ∧
      ∃ b' : State, b'.registry = b.registry ∧ e.wills env b = disconnectWills env c b' := by
  cases e with
  | connect d maxQos packet =>
    cases hsource
    exact absurd hrepeats (by simp [Event.repeats])
  | refuse d =>
    cases hsource
    exact absurd hrepeats (by simp [Event.repeats])
  | publish d packet =>
    cases hsource
    exact lost_handlePacket h (registry_handlePublish c packet b) hlost
  | pubrel d packet =>
    cases hsource
    exact lost_handlePacket h (registry_handlePubrel c packet b) hlost
  | ack d type packet =>
    cases hsource
    exact lost_handlePacket h (registry_onClient (quiet_handlePubackcomp type packet) c b) hlost
  | pubrec d packet =>
    cases hsource
    exact lost_handlePacket h
      (registry_onClient (fun m => quiet_of_rests (rests_handlePubrec packet m)) c b) hlost
  | subscribe d packet =>
    cases hsource
    exact lost_handlePacket h (registry_handleSubscribe c packet b) hlost
  | unsubscribe d packet =>
    cases hsource
    exact lost_handlePacket h (registry_handleUnsubscribe c packet b) hlost
  | disconnect d packet =>
    cases hsource
    cases packet with
    | some packet => exact absurd hleaves (by simp [Event.leaves])
    | none =>
      have hsame : (b.modifyClient c (·.disconnecting none)).registry = b.registry := by
        apply registry_modifyClient
        exact fun _ => rfl
      refine ⟨?_, _, hsame, rfl⟩
      show (contextDisconnect env c (b.modifyClient c (·.disconnecting none))).registry = _
      rw [registry_contextDisconnect, hsame]
  | write d =>
    cases hsource
    have hsent : (b.onClient c (packetWrite env)).2.registry = b.registry :=
      registry_onClient (fun m => quiet_of_rests (rests_sent m _)) c b
    obtain ⟨hreg, hlog⟩ := lost_afterError h hsent hlost
    exact ⟨hreg, _, hsent, hlog⟩
  | _ => cases hsource

/-- The other events leave the connection alone. -/
theorem Armed.keeps (h : Armed env c w p b) (hready : e.ready b = true)
    (hsource : e.source ≠ some c) (ht : e.takes b c = none) : (b.exec env e).connected c = true := by
  have htidy := h.sound.tidy
  have hgone : p.state ≠ .disconnected := fun e => nomatch h.active.symm.trans e
  obtain ⟨hexpiry, hdelay⟩ := htidy.notMem h.get hgone
  obtain ⟨o, -, -, hexec⟩ := @registry_exec env e b
  refine h.stays ?_
  rw [hexec]
  by_cases hd : e = .delayCheck
  · subst hd
    by_cases hnow : b.registry.lastDelayCheck < b.registry.now
    · have hend := fired_takeWhile htidy.delaying htidy.delayNodup hnow
      exact (hend.others c fun hm => hdelay (List.takeWhile_subset _ hm)).trans h.get
    · rw [show b.registry.exec o .delayCheck = b.registry from if_pos (not_lt.mp hnow)]
      exact h.get
  by_cases he : e = .expiryCheck
  · subst he
    by_cases hnow : b.registry.lastExpiryCheck < b.registry.now
    · have hend := (ended_expiryCheck htidy hnow).1
      exact (hend.others c fun hm => hexpiry (List.mem_of_mem_filter hm)).trans h.get
    · rw [show b.registry.exec o .expiryCheck = b.registry from if_pos (not_lt.mp hnow)]
      exact h.get
  refine exec_aside h.sound h.get (fun e => nomatch h.active.symm.trans e) (fun d hs => ?_)
    (takes_none h.get ht) he hd
  exact ⟨fun e => hsource (e ▸ hs), Event.open_source hready hs⟩

/-- A new connection takes over the client while it is connected. -/
theorem obeys_armed_takes {packet : ConnectPacket} (h : Armed env c w p b)
    (hready : e.ready b = true) (hlose : loses b c e = false) (ht : e.takes b c = some packet) :
    Obeys env c w (own c (e.wills env b)) (b.exec env e) (verdict env c b e) := by
  obtain ⟨d, maxQos, x, rfl, hx, hnew, hid⟩ := takes_some h.get ht
  obtain ⟨y, hy, hopen⟩ := Event.open_source hready rfl
  cases hx.symm.trans hy
  obtain ⟨o, -, -, hexec⟩ := @registry_exec env (.connect d maxQos packet) b
  obtain ⟨hne, q, hq, hdis⟩ := connect_found (o := o) h.sound hx hopen hnew h.get hid
  have hsilent : Has Party.Silent c (b.exec env (.connect d maxQos packet)).registry := by
    refine silent_disused (sound_next h.sound hready).tidy ?_ hdis
    rw [hexec]
    exact hq
  obtain ⟨b', hp', hdue, hnot⟩ : ∃ b' : State, b'.registry.parties c = some p ∧
      (p.Due packet → connectWills env d packet b = queuedWill env c b') ∧
      (¬ p.Due packet → connectWills env d packet b = []) :=
    connectWills_found h.sound hx hnew hne h.get hid
  have hlog : own c ((Event.connect d maxQos packet).wills env b) =
      own c (connectWills env d packet b) := by
    show own c (connectWills env d packet b ++ errorWills env d _) = _
    rw [own_append, own_errorWills_ne hne.symm, List.append_nil]
  obtain ⟨ctx, hget, hctx⟩ := Option.map_eq_some_iff.mp h.get
  have hinterval : ctx.sessionExpiryInterval = p.sessionExpiryInterval :=
    congrArg Party.sessionExpiryInterval hctx
  rw [verdict_takes hget ht, hlog, hinterval]
  by_cases hstart : packet.cleanStart = true
  · have hzero : p.willDelayInterval = 0 := by
      have hwilling := hlose
      unfold loses at hwilling
      rw [ht, hget, Option.any_some, Option.any_some, hstart, Bool.true_and] at hwilling
      have hwill : ctx.will = some w := (congrArg Party.will hctx).trans h.will
      rw [hwill, Option.isSome_some, Bool.true_and, decide_eq_false_iff_not] at hwilling
      rw [← congrArg Party.willDelayInterval hctx]
      exact Nat.eq_zero_of_not_pos hwilling
    rw [if_pos hstart, hdue (.inr (.inr hstart)), queuedWill_due hp' h.will
      (fun e => nomatch h.active.symm.trans e) hzero h.permits]
    exact ⟨List.filter_cons_of_pos (by simp), hsilent⟩
  · rw [if_neg hstart]
    split
    · rename_i hpos
      have hkept : ¬ p.Due packet := by
        rintro (hzero | hzero | hclean)
        · exact absurd hzero.2 (Nat.ne_of_gt hpos)
        · exact absurd (h.clean p h.get hzero.1 hzero.2) (Nat.ne_of_gt hpos)
        · exact hstart hclean
      rw [hnot hkept]
      exact ⟨rfl, hsilent⟩
    · exact hsilent

theorem verdict_lost {ctx : Context} (hget : b.contexts.get c = some ctx)
    (ht : e.takes b c = none) (hsource : e.source ≠ none) (hconn : b.connected c = true)
    (hlost : (b.exec env e).connected c = false) :
    verdict env c b e = if ctx.willDelayInterval = 0 then some .publish else none := by
  unfold verdict
  rw [hget]
  simp only
  rw [ht]
  cases e with
  | delayCheck => exact absurd rfl hsource
  | expiryCheck => exact absurd rfl hsource
  | _ => simp [hconn, hlost]

/-- **The event that ends a connection does with the will what it decides.** -/
theorem loss_step (h : Armed env c w p b) (hready : e.ready b = true)
    (hleaves : e.leaves c = false) (hrepeats : e.repeats c = false) (hlose : loses b c e = false)
    (hlost : (b.exec env e).connected c = false) :
    Obeys env c w (own c (e.wills env b)) (b.exec env e) (verdict env c b e) := by
  cases ht : e.takes b c with
  | some packet => exact obeys_armed_takes h hready hlose ht
  | none =>
    by_cases hsource : e.source = some c
    · obtain ⟨hreg, b', hb', hlog⟩ := lost_source h hsource hleaves hrepeats hlost
      obtain ⟨ctx, hget, hctx⟩ := Option.map_eq_some_iff.mp h.get
      have hdelay : ctx.willDelayInterval = p.willDelayInterval :=
        congrArg Party.willDelayInterval hctx
      rw [verdict_lost hget ht (fun e => nomatch hsource.symm.trans e) (h.stays h.get) hlost, hdelay]
      exact obeys_disconnect h (sound_next h.sound hready) hreg ⟨b', hb', hlog⟩
    · exact nomatch (h.keeps hready hsource ht).symm.trans hlost

end Loss

/-! ## Runs -/

/-- Each event of a run passes on the wills of the log. -/
def Logged (env : Env) : List Event → State → Prop
  | [], _ => True
  | e :: es, b => Queues (e.wills env b) (e.before env b) (b.exec env e) ∧
      Logged env es (b.exec env e)

/-- What the wills of a client in the log of a run should be. -/
def Settled (c : CtxId) (w : Will) (log : Wills) : Option Verdict → Prop
  | some .publish => log = [(c, w)]
  | some .cancel | none => log = []
  | some .unsaid => True

section Run

variable {env : Env} {config : Config} {clock : Nat → Reading} {c : CtxId} {b : State} {e : Event}
  {es : List Event} {w : Will}

open Registry

theorem logged_run (es : List Event) (b : State) : Logged env es b := by
  induction es generalizing b with
  | nil => trivial
  | cons e es ih => exact ⟨queues_exec e b, ih _⟩

theorem silent_run (h : Has Party.Silent c b.registry) (hc : c < b.registry.nextContext)
    (hready : allReady env es b = true) : own c (runWills env es b) = [] := by
  induction es generalizing b with
  | nil => rfl
  | cons e es ih =>
    obtain ⟨he, hrest⟩ := (Bool.and_eq_true_iff).mp hready
    obtain ⟨hlog, hsilent, hnext⟩ := silent_step h hc he
    unfold runWills
    rw [own_append, hlog, ih hsilent hnext hrest]
    rfl

/-- Nothing follows a decision. -/
theorem settled_cons (hc : c < b.registry.nextContext)
    (hstep : Obeys env c w (own c (e.wills env b)) (b.exec env e) (verdict env c b e))
    (hready : allReady env es (b.exec env e) = true)
    (hrest : Waits env c w (b.exec env e) →
      Settled c w (own c (runWills env es (b.exec env e))) (settle env c es (b.exec env e))) :
    Settled c w (own c (runWills env (e :: es) b)) (settle env c (e :: es) b) := by
  have hnext : c < (b.exec env e).registry.nextContext := by
    obtain ⟨o, -, -, hexec⟩ := @registry_exec env e b
    rw [hexec]
    exact hc.trans_le (nextContext_exec o e _)
  have hsilent : Has Party.Silent c (b.exec env e).registry →
      own c (runWills env (e :: es) b) = own c (e.wills env b) := by
    intro h
    unfold runWills
    rw [own_append, silent_run h hnext hready, List.append_nil]
  unfold settle
  cases hv : verdict env c b e with
  | none =>
    rw [hv] at hstep
    unfold runWills
    rw [own_append, hstep.1, List.nil_append, Option.none_or]
    exact hrest hstep.2
  | some v =>
    rw [hv] at hstep
    cases v with
    | publish => exact (hsilent hstep.2).trans hstep.1
    | cancel => exact (hsilent hstep.2).trans hstep.1
    | unsaid => trivial

theorem waits_run (h : Waits env c w b) (hready : allReady env es b = true)
    (hlose : neverLoses env c es b = true) :
    Settled c w (own c (runWills env es b)) (settle env c es b) := by
  induction es generalizing b with
  | nil => rfl
  | cons e es ih =>
    obtain ⟨he, hrest⟩ := (Bool.and_eq_true_iff).mp hready
    obtain ⟨hnot, hnever⟩ := (Bool.and_eq_true_iff).mp hlose
    obtain ⟨p, hp, -⟩ := h.waiting
    have hstep := waits_step h he (by simpa using hnot)
    exact settled_cons (h.sound.tidy.suits hp).allocated hstep hrest fun h' => ih h' hrest hnever

/-- **A will is published exactly once unless it is cancelled**: in every run that begins with
the loss of a connection, but not with a DISCONNECT or a second CONNECT of the client, and in
which no CONNECT with `clean_start` finds a will with a delay. -/
theorem will_exactly_once {ctx : Context} (h : Reaches env config clock b)
    (hget : b.contexts.get c = some ctx) (hsock : ctx.sock ≠ none) (hwill : ctx.will = some w)
    (hacl : Permits env ctx.id w) (hready : allReady env (e :: es) b = true)
    (hlost : (b.exec env e).connected c = false) (hleaves : e.leaves c = false)
    (hrepeats : e.repeats c = false) (hlose : neverLoses env c (e :: es) b = true) :
    Logged env (e :: es) b ∧
      Settled c w (own c (runWills env (e :: es) b)) (settle env c (e :: es) b) := by
  obtain ⟨hsound, hclean⟩ := sound_reaches h
  have harmed : Armed env c w (party ctx) b :=
    ⟨hsound, hclean c, parties_some hget, hsock, hwill, hacl⟩
  obtain ⟨he, hrest⟩ := (Bool.and_eq_true_iff).mp hready
  obtain ⟨hnot, hnever⟩ := (Bool.and_eq_true_iff).mp hlose
  have hstep := loss_step harmed he hleaves hrepeats (by simpa using hnot) hlost
  exact ⟨logged_run _ _, settled_cons (hsound.tidy.suits harmed.get).allocated hstep hrest fun h' =>
    waits_run h' hrest hnever⟩

/-! ### A client with a will -/

theorem ascii_w_ne_nil : ascii "w" ≠ [] := by
  decide

def lastWords : Will :=
  { topic := ascii "w", topic_ne_nil := ascii_w_ne_nil, payload := [1], qos := .q0, retain := false
    expiryInterval := 0, properties := [] }

/-- A CONNECT with a session of 100 seconds. -/
def connectWith (will : Option Will) (delay : Nat) : ConnectPacket :=
  { clientId := ascii "a", protocol := .mqtt5, isBridge := false, cleanStart := true
    keepalive := 60, properties := [⟨17, .int32 100⟩], will, willDelayInterval := delay
    thresholdL := none }

/-- A client is connected whose will has a delay of 10 seconds. -/
def willingOne : State :=
  ((State.dbOpen Config.init fun _ => ⟨0, 0, 0⟩).exec .granting (.accept 3 none)).exec .granting
    (.connect 0 .q2 (connectWith (some lastWords) 10))

theorem reaches_willingOne : Reaches .granting Config.init (fun _ => ⟨0, 0, 0⟩) willingOne :=
  (Reaches.start.next (.accept 3 none) rfl).next _ (by decide)

theorem permits_granting (k : Bytes) : Permits .granting (some k) lastWords := by
  intro ctx hid
  have hdollar : aclCheckDollar lastWords.topic .write = Rc.success := by decide
  unfold mosquittoAclCheck
  rw [if_neg (fun h : ctx.id = none => nomatch hid.symm.trans h), hdollar]
  split
  · rfl
  · exact if_neg fun h => h rfl

/-- The client loses its connection, and the delay passes before the session ends. -/
theorem will_exactly_once_delay :
    let es : List Event :=
      [.disconnect 0 none, .tick 11 11, .delayCheck, .tick 200 200, .expiryCheck]
    settle .granting 0 es willingOne = some .publish ∧
      own 0 (runWills .granting es willingOne) = [(0, lastWords)] := by
  intro es
  have hsettle : settle .granting 0 es willingOne = some .publish := by decide
  obtain ⟨ctx, hget⟩ : ∃ ctx, willingOne.contexts.get 0 = some ctx := ⟨_, rfl⟩
  have hctx := Option.some.inj hget
  have hsock : ctx.sock ≠ none := by rw [← hctx]; decide
  have hwill : ctx.will = some lastWords := by rw [← hctx]; rfl
  have hacl : Permits .granting ctx.id lastWords := by rw [← hctx]; exact permits_granting _
  have h : Logged .granting es willingOne ∧ Settled 0 lastWords
      (own 0 (runWills .granting es willingOne)) (settle .granting 0 es willingOne) :=
    will_exactly_once reaches_willingOne hget hsock hwill hacl (by decide) (by decide) rfl rfl
      (by decide)
  rw [hsettle] at h
  exact ⟨hsettle, h.2⟩

/-- **A will is lost**: the session ends with a CONNECT with `clean_start` before the delay is
over. -/
theorem will_lost_clean_start :
    let es : List Event := [.disconnect 0 none, .accept 4 none, .connect 1 .q2 (connectWith none 0),
      .tick 11 11, .delayCheck, .tick 200 200, .expiryCheck]
    Reaches .granting Config.init (fun _ => ⟨0, 0, 0⟩) willingOne ∧
      (willingOne.contexts.get 0).any (fun ctx => ctx.sock.isSome ∧ ctx.id = some (ascii "a")) = true ∧
      (willingOne.contexts.get 0).bind (·.will) = some lastWords ∧
      Permits .granting (some (ascii "a")) lastWords ∧
      allReady .granting es willingOne = true ∧
      (willingOne.exec .granting (.disconnect 0 none)).connected 0 = false ∧
      settle .granting 0 es willingOne = some .publish ∧
      own 0 (runWills .granting es willingOne) = [] := by
  intro es
  refine ⟨reaches_willingOne, by decide, rfl, permits_granting _, by decide, by decide, by decide,
    by decide⟩

end Run

end AdaptiveMqtt.Broker
