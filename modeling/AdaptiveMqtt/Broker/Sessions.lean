import AdaptiveMqtt.Broker.Registry

/-!
# Sessions over the events of the broker

The functions that write to the registry, on the registry alone: what is left of
`context__send_will`, `context__disconnect`, `connect__on_authorised` and the two checks when
messages are passed over. The state of the broker refines the registry, event by event.
-/

namespace AdaptiveMqtt.Broker

open Lib AdaptiveMqtt.Sub Db

namespace Party

def setState (state : ClientState) (p : Party) : Party :=
  if p.state ≠ .disused then { p with state } else p

def socketClose (p : Party) : Party := { p with sock := none }

def willClear (p : Party) : Party :=
  if p.will.isSome then { p with will := none, willDelayInterval := 0 } else p

abbrev Delays (p : Party) : Prop :=
  p.will.isSome = true ∧ p.state ≠ .disconnecting ∧ p.willDelayInterval > 0

/-- A CONNECT packet is read; `interval` is what its properties say. -/
def connect (packet : ConnectPacket) (interval : Nat) (p : Party) : Party :=
  { p with
    id := some packet.clientId, protocol := packet.protocol, cleanStart := packet.cleanStart
    sessionExpiryInterval := interval, will := packet.will
    willDelayInterval := if packet.will.isSome then packet.willDelayInterval
      else p.willDelayInterval }

def refused (p : Party) : Party :=
  { p with id := if p.state = .new then none else p.id, will := none, cleanStart := true
           sessionExpiryInterval := 0, willDelayInterval := 0 }

def disconnecting (packet : Option (Bool × Option Nat)) (p : Party) : Party :=
  match packet with
  | none => p
  | some (withWill, expiry) =>
    let expiry := if p.protocol = .mqtt5 then expiry else none
    if p.sessionExpiryInterval = 0 ∧ expiry.any (· ≠ 0) then p
    else
      let p := { p with sessionExpiryInterval := expiry.getD p.sessionExpiryInterval }
      if withWill then p.setState .disconnectWithWill else p.willClear.setState .disconnecting

end Party

namespace Registry

def modify (c : CtxId) (f : Party → Party) (r : Registry) : Registry :=
  { r with parties := Function.update r.parties c ((r.parties c).map f) }

theorem modify_self (c : CtxId) (f : Party → Party) (r : Registry) :
    (r.modify c f).parties c = (r.parties c).map f := Function.update_self ..

theorem modify_none {c : CtxId} {r : Registry} {f : Party → Party} (h : r.parties c = none) :
    r.modify c f = r := by
  unfold modify
  rw [h, Option.map_none, ← h, Function.update_eq_self]

/-- When a session that ends now is over. -/
def deadline (r : Registry) (interval : Nat) : Int :=
  r.now + if r.limit = 0 then interval else min r.limit interval

/-- The session is never over. -/
abbrev Endless (r : Registry) (interval : Nat) : Prop := r.limit = 0 ∧ interval = 0xFFFFFFFF

def expiryAdd (c : CtxId) (r : Registry) : Registry :=
  match r.parties c with
  | none => r
  | some p =>
    if r.Endless p.sessionExpiryInterval then r
    else
      let time := r.deadline p.sessionExpiryInterval
      let r := r.modify c fun p => { p with sessionExpiryTime := time }
      let earlier := fun d => (r.parties d).any (·.sessionExpiryTime < time)
      { r with expiryList := Agenda.insertBefore earlier c r.expiryList }

def expiryRemove (c : CtxId) (r : Registry) : Registry :=
  { r with expiryList := r.expiryList.erase c }

def delayAdd (c : CtxId) (r : Registry) : Registry :=
  match r.parties c with
  | none => r
  | some p =>
    if c ∈ r.delayList then r
    else
      let time := r.now + p.willDelayInterval
      let r := r.modify c fun p => { p with willDelayTime := time }
      let less := fun d => (r.parties d).any fun d =>
        willDelayCmp d.willDelayInterval p.willDelayInterval < 0
      { r with delayList := Agenda.insertBefore less c r.delayList }

def delayRemove (c : CtxId) (r : Registry) : Registry :=
  { r with delayList := r.delayList.erase c }

def sendWill (c : CtxId) (r : Registry) : Registry :=
  match r.parties c with
  | none => r
  | some p => if p.Delays then r.delayAdd c else r.modify c (·.willClear)

def removeFromById (c : CtxId) (r : Registry) : Registry :=
  match (r.parties c).bind (·.id), r.parties c with
  | some id, some p =>
    if p.removedFromById then r
    else
      let r := r.modify c fun p => { p with removedFromById := true }
      { r with contextsById := Function.update r.contextsById id none }
  | _, _ => r

def addToDisused (c : CtxId) (r : Registry) : Registry :=
  match r.parties c with
  | none => r
  | some p =>
    if p.state = .disused then r
    else
      let r := (r.modify c (·.setState .disused)).removeFromById c
      let r := r.modify c fun p => { p with id := none }
      { r with llForFree := c :: r.llForFree }

/-- What `context__disconnect` does with the session after the will. -/
def endSession (c : CtxId) (r : Registry) : Registry :=
  match r.parties c with
  | none => r
  | some p =>
    if p.sessionExpiryInterval = 0 then
      if p.bridged = false ∧ p.willDelayInterval = 0 then r.addToDisused c else r
    else r.expiryAdd c

def disconnect (c : CtxId) (r : Registry) : Registry :=
  match r.parties c with
  | none => r
  | some p =>
    if p.state = .disconnected then r
    else (((r.modify c (·.socketClose)).sendWill c).endSession c).modify c (·.setState .disconnected)

def cleanup (c : CtxId) (r : Registry) : Registry :=
  let r := r.modify c fun p => { p with cleanStart := true }.socketClose
  let r := (r.sendWill c).removeFromById c
  { r with parties := Function.update r.parties c none }

def freeDisused (r : Registry) : Registry :=
  r.llForFree.foldl (fun r c => r.cleanup c) { r with llForFree := [] }

/-- One round of `session_expiry__check`. -/
def expire (c : CtxId) (r : Registry) : Registry :=
  let r := (r.expiryRemove c).modify c fun p =>
    { p with sessionExpiryInterval := 0, willDelayInterval := 0 }
  ((r.delayRemove c).sendWill c).addToDisused c

def expiryLoop : List CtxId → Registry → Registry
  | [], r => r
  | c :: rest, r =>
    if (r.parties c).any (·.sessionExpiryTime < r.now) then expiryLoop rest (r.expire c) else r

def expiryCheck (r : Registry) : Registry :=
  if r.now ≤ r.lastExpiryCheck then r
  else expiryLoop r.expiryList { r with lastExpiryCheck := r.now }

/-- One round of `will_delay__check`. -/
def fire (c : CtxId) (r : Registry) : Registry :=
  let r := (r.delayRemove c).modify c fun p => { p with willDelayInterval := 0 }
  let r := r.sendWill c
  if (r.parties c).any (·.sessionExpiryInterval = 0) then r.addToDisused c else r

def delayLoop : List CtxId → Registry → Registry
  | [], r => r
  | c :: rest, r =>
    if (r.parties c).any (·.willDelayTime < r.now) then delayLoop rest (r.fire c) else r

def delayCheck (r : Registry) : Registry :=
  if r.now ≤ r.lastDelayCheck then r
  else delayLoop r.delayList { r with lastDelayCheck := r.now }

/-- The session of `found` ends where the one of `c` begins. -/
def takeOver (found c : CtxId) (r : Registry) : Registry :=
  match r.parties found, r.parties c with
  | some old, some p =>
    let due : Bool := (old.protocol = .mqtt5 ∧ old.sessionExpiryInterval = 0) ∨
      (old.protocol ≠ .mqtt5 ∧ old.cleanStart = true) ∨ p.cleanStart = true
    let r := if due then r.sendWill found else r
    let r := (r.expiryRemove found).delayRemove found
    let r := r.modify found fun p =>
      { p.willClear with cleanStart := true, sessionExpiryInterval := 0 }.setState .duplicate
    r.disconnect found
  | _, _ => r

/-- What the messages decide: whether the connection ends, and whether a CONNECT gets as far
as to make the client active. -/
structure Outcome where
  interval : Nat
  active : Bool
  fail : Bool

/-- A clean session of a protocol without intervals ends with the connection. -/
def Outcome.Fits (o : Outcome) : Event → Prop
  | .connect _ _ packet =>
    packet.protocol ≠ .mqtt5 → packet.cleanStart = true → o.interval = 0
  | _ => True

def afterError (fail : Bool) (c : CtxId) (r : Registry) : Registry :=
  if fail then r.disconnect c else r

def connect (o : Outcome) (c : CtxId) (packet : ConnectPacket) (r : Registry) : Registry :=
  if (r.parties c).any (·.state = .new) then
    let r := r.modify c (·.connect packet o.interval)
    let r := (r.contextsById packet.clientId).elim r (r.takeOver · c)
    let r := { r with contextsById := Function.update r.contextsById packet.clientId (some c) }
    if o.active then r.modify c (·.setState .active) else r
  else r.modify c (·.refused)

/-- The registry after an event. -/
def exec (o : Outcome) (r : Registry) : Event → Registry
  | .accept sock mountPoint =>
    { r with
      parties := Function.update r.parties r.nextContext
        (some (party { Context.init Config.init (some sock) with mountPoint }))
      nextContext := r.nextContext + 1 }
  | .connect c _ packet => (r.connect o c packet).afterError o.fail c
  | .refuse c => (r.modify c (·.refused)).disconnect c
  | .publish c _ | .pubrel c _ | .ack c _ _ | .pubrec c _ | .subscribe c _ | .unsubscribe c _
  | .write c => r.afterError o.fail c
  | .disconnect c packet => (r.modify c (·.disconnecting packet)).disconnect c
  | .tick _ nowRealS => { r with now := nowRealS }
  | .expiryCheck => r.expiryCheck
  | .delayCheck => r.delayCheck
  | .freeDisused => r.freeDisused
  | .sysTree _ _ => r

end Registry

/-! ## The broker refines the registry -/

section Refine

variable {env : Env} {c : CtxId} {b : State}

theorem party_setState (state : ClientState) (ctx : Context) :
    party (ctx.setState state) = (party ctx).setState state := by
  unfold Context.setState Party.setState
  show _ = if ctx.state ≠ .disused then _ else _
  split <;> rfl

theorem party_willClear (ctx : Context) : party ctx.willClear = (party ctx).willClear := by
  unfold Context.willClear Party.willClear
  show _ = if ctx.will.isSome then _ else _
  split <;> rfl

theorem party_disconnecting (packet : Option (Bool × Option Nat)) (ctx : Context) :
    party (ctx.disconnecting packet) = (party ctx).disconnecting packet := by
  unfold Context.disconnecting Party.disconnecting
  cases packet with
  | none => rfl
  | some packet =>
    obtain ⟨withWill, expiry⟩ := packet
    show party (if _ then _ else _) = if _ then _ else _
    by_cases h : ctx.sessionExpiryInterval = 0 ∧
        (if ctx.protocol = .mqtt5 then expiry else none).any (· ≠ 0) = true
    · rw [if_pos h]
      exact (if_pos h).symm
    · rw [if_neg h]
      refine Eq.trans ?_ (if_neg h).symm
      cases withWill with
      | true => exact party_setState _ _
      | false => exact (party_setState _ _).trans (congrArg _ (party_willClear _))

theorem party_connect (packet : ConnectPacket) (ctx : Context) :
    party (ctx.connect packet) =
      (party ctx).connect packet (ctx.connect packet).sessionExpiryInterval := by
  -- the properties write the expiry interval and nothing else of a party
  let base := fun ctx : Context => { party ctx with sessionExpiryInterval := 0 }
  have hbase : ∀ ctx : Context,
      base (if packet.protocol = .mqtt5 then ctx.processConnect packet.properties else ctx) =
        base ctx := by
    intro ctx
    split
    · exact Context.processConnect_field base (fun _ _ => rfl) (fun _ _ => rfl) (fun _ _ => rfl) _ _
    · rfl
  let rest := fun (p : Party) (interval : Nat) =>
    { p with id := some packet.clientId, cleanStart := packet.cleanStart
             sessionExpiryInterval := interval, will := packet.will
             willDelayInterval := if packet.will.isSome then packet.willDelayInterval
               else p.willDelayInterval }
  unfold Context.connect
  simp only
  generalize hctx : ({ ctx with
    protocol := packet.protocol, isBridge := packet.isBridge, keepalive := packet.keepalive
    sessionExpiryInterval := if packet.cleanStart = false ∧ packet.protocol ≠ .mqtt5 then 0xFFFFFFFF
      else 0 } : Context) = ctx₀
  have h := congrArg (fun p => rest p (if packet.protocol = .mqtt5 then
    ctx₀.processConnect packet.properties else ctx₀).sessionExpiryInterval) (hbase ctx₀)
  refine Eq.trans h ?_
  rw [← hctx]
  rfl

theorem registry_modifyAt {f : Context → Context} {g : Party → Party} {c : CtxId} {b : State}
    (hf : ∀ ctx, b.contexts.get c = some ctx → party (f ctx) = g (party ctx)) :
    (b.modifyClient c f).registry = b.registry.modify c g := by
  refine congrArg (fun h => { b.registry with parties := h }) (funext fun d => ?_)
  show ((b.contexts.modify c f).get d).map party =
    Function.update b.registry.parties c (((b.contexts.get c).map party).map g) d
  rw [Heap.get_modify, Function.update_apply]
  split
  · cases hget : b.contexts.get c with
    | none => rfl
    | some ctx => exact congrArg some (hf ctx hget)
  · rfl

theorem registry_modify {f : Context → Context} {g : Party → Party}
    (hf : ∀ ctx, party (f ctx) = g (party ctx)) (c : CtxId) (b : State) :
    (b.modifyClient c f).registry = b.registry.modify c g :=
  registry_modifyAt fun ctx _ => hf ctx

end Refine

section Refine

variable {env : Env} {c : CtxId} {b : State}

theorem parties_none (h : b.contexts.get c = none) : b.registry.parties c = none :=
  congrArg (Option.map party) h

theorem parties_some {ctx : Context} (h : b.contexts.get c = some ctx) :
    b.registry.parties c = some (party ctx) :=
  congrArg (Option.map party) h

theorem sessionExpiryCmp_neg (t1 t2 : Int) : sessionExpiryCmp t1 t2 < 0 ↔ t1 < t2 := by
  unfold sessionExpiryCmp
  split_ifs <;> omega

/-- The smaller of the two intervals, as `session_expiry__add` finds it. -/
theorem deadline_eq (b : State) (interval : Nat) :
    b.db.nowRealS + ((if b.db.config.persistentClientExpiration = 0 then interval
      else if b.db.config.persistentClientExpiration < interval then
        b.db.config.persistentClientExpiration else interval : Nat) : Int) =
      b.registry.deadline interval := by
  unfold Registry.deadline
  show _ = b.db.nowRealS + ((if b.db.config.persistentClientExpiration = 0 then interval
    else min b.db.config.persistentClientExpiration interval : Nat) : Int)
  split_ifs <;> omega

theorem registry_expiryList {r : Registry} (h : b.registry = r) (c : CtxId) (time : Int) :
    { b with expiryList := insertInorder (fun d => (b.contexts.get d).elim 0 fun d =>
        sessionExpiryCmp d.sessionExpiryTime time) c b.expiryList }.registry =
      { r with expiryList := Agenda.insertBefore (fun d => (r.parties d).any fun d =>
        d.sessionExpiryTime < time) c r.expiryList } := by
  subst h
  refine congrArg (fun less => { b.registry with
    expiryList := Agenda.insertBefore less c b.expiryList }) (funext fun d => ?_)
  have hcmp : ∀ o : Option Context, decide ((o.elim 0 fun d =>
      sessionExpiryCmp d.sessionExpiryTime time) < 0) =
      (o.map party).any fun d => d.sessionExpiryTime < time := by
    intro o
    cases o with
    | none => rfl
    | some other => exact decide_eq_decide.mpr (sessionExpiryCmp_neg _ _)
  exact hcmp _

theorem registry_sessionExpiryAdd (c : CtxId) (b : State) :
    (sessionExpiryAdd c b).registry = b.registry.expiryAdd c := by
  unfold sessionExpiryAdd Registry.expiryAdd
  cases hget : b.contexts.get c with
  | none => rw [parties_none hget]
  | some ctx =>
    rw [parties_some hget]
    simp only [deadline_eq]
    by_cases hend : b.registry.Endless ctx.sessionExpiryInterval
    · refine (congrArg State.registry (if_pos hend)).trans ?_
      exact (if_pos hend).symm
    · refine (congrArg State.registry (if_neg hend)).trans (Eq.trans ?_ (if_neg hend).symm)
      refine registry_expiryList ?_ c _
      apply registry_modify
      exact fun _ => rfl

theorem registry_delayList {r : Registry} (h : b.registry = r) (c : CtxId) (interval : Nat) :
    { b with delayList := insertInorder (fun d => (b.contexts.get d).elim 0 fun d =>
        willDelayCmp d.willDelayInterval interval) c b.delayList }.registry =
      { r with delayList := Agenda.insertBefore (fun d => (r.parties d).any fun d =>
        willDelayCmp d.willDelayInterval interval < 0) c r.delayList } := by
  subst h
  refine congrArg (fun less => { b.registry with
    delayList := Agenda.insertBefore less c b.delayList }) (funext fun d => ?_)
  have hcmp : ∀ o : Option Context, decide ((o.elim 0 fun d =>
      willDelayCmp d.willDelayInterval interval) < 0) =
      (o.map party).any fun d => willDelayCmp d.willDelayInterval interval < 0 := by
    intro o
    cases o <;> rfl
  exact hcmp _

theorem registry_willDelayAdd (c : CtxId) (b : State) :
    (willDelayAdd c b).registry = b.registry.delayAdd c := by
  unfold willDelayAdd Registry.delayAdd
  cases hget : b.contexts.get c with
  | none => rw [parties_none hget]
  | some ctx =>
    rw [parties_some hget]
    simp only
    by_cases hmem : c ∈ b.delayList
    · refine (congrArg State.registry (if_pos hmem)).trans ?_
      exact (if_pos hmem).symm
    · refine (congrArg State.registry (if_neg hmem)).trans (Eq.trans ?_ (if_neg hmem).symm)
      refine registry_delayList ?_ c _
      apply registry_modify
      exact fun _ => rfl

theorem registry_contextSendWill (c : CtxId) (b : State) :
    (contextSendWill env c b).registry = b.registry.sendWill c := by
  have hclear : ∀ b' : State, b'.registry = b.registry →
      (b'.modifyClient c (·.willClear)).registry = b.registry.modify c (·.willClear) := by
    intro b' h
    rw [← h]
    exact registry_modify party_willClear c b'
  unfold contextSendWill Registry.sendWill
  cases hget : b.contexts.get c with
  | none => rw [parties_none hget]
  | some ctx =>
    rw [parties_some hget]
    simp only
    cases hwill : ctx.will with
    | none =>
      have hnot : ¬ (party ctx).Delays := fun h => by
        have := h.1
        rw [show (party ctx).will = none from hwill] at this
        cases this
      rw [if_neg hnot]
      exact hclear b rfl
    | some will =>
      simp only
      by_cases hstate : ctx.state = .disconnecting
      · rw [if_pos hstate, if_neg fun h : (party ctx).Delays => h.2.1 hstate]
        exact hclear b rfl
      · rw [if_neg hstate]
        by_cases hdelay : ctx.willDelayInterval > 0
        · have hsome : (party ctx).will.isSome = true := by
            rw [show (party ctx).will = some will from hwill]
            rfl
          rw [if_pos hdelay, if_pos (⟨hsome, hstate, hdelay⟩ : (party ctx).Delays)]
          exact registry_willDelayAdd c b
        · rw [if_neg hdelay, if_neg fun h : (party ctx).Delays => hdelay h.2.2]
          split
          · exact hclear _ (registry_messagesEasyQueue _ _ _ b)
          · exact hclear b rfl

theorem registry_contextRemoveFromById (c : CtxId) (b : State) :
    (contextRemoveFromById c b).registry = b.registry.removeFromById c := by
  unfold contextRemoveFromById Registry.removeFromById
  cases hget : b.contexts.get c with
  | none => rw [parties_none hget]; rfl
  | some ctx =>
    rw [parties_some hget]
    simp only
    cases hid : ctx.id with
    | none =>
      have hnone : (some (party ctx)).bind (·.id) = none := hid
      rw [hnone]
    | some id =>
      have hsome : (some (party ctx)).bind (·.id) = some id := hid
      rw [hsome]
      simp only
      by_cases hremoved : ctx.removedFromById = true
      · rw [if_pos hremoved]
        exact (if_pos hremoved).symm
      · rw [if_neg hremoved]
        refine Eq.trans ?_ (if_neg hremoved).symm
        have hreg : (b.modifyClient c fun ctx => { ctx with removedFromById := true }).registry =
            b.registry.modify c fun p => { p with removedFromById := true } := by
          apply registry_modify
          exact fun _ => rfl
        rw [← hreg]
        refine congrArg (fun f => { (b.modifyClient c _).registry with contextsById := f }) ?_
        funext k
        show (b.contextsById.del id).get k = Function.update b.contextsById.get id none k
        rw [Heap.get_del, Function.update_apply]

theorem registry_contextAddToDisused (c : CtxId) (b : State) :
    (contextAddToDisused c b).registry = b.registry.addToDisused c := by
  unfold contextAddToDisused Registry.addToDisused
  cases hget : b.contexts.get c with
  | none => rw [parties_none hget]
  | some ctx =>
    rw [parties_some hget]
    simp only
    by_cases hstate : ctx.state = .disused
    · rw [if_pos hstate]
      exact (if_pos hstate).symm
    · rw [if_neg hstate]
      refine Eq.trans ?_ (if_neg hstate).symm
      have hreg : ((contextRemoveFromById c (b.modifyClient c (·.setState .disused))).modifyClient c
          fun ctx => { ctx with id := none }).registry =
          ((b.registry.modify c (·.setState .disused)).removeFromById c).modify c
            fun p => { p with id := none } := by
        rw [← registry_modify (party_setState .disused) c b, ← registry_contextRemoveFromById]
        apply registry_modify
        exact fun _ => rfl
      rw [← hreg]
      rfl

theorem registry_contextDisconnect (c : CtxId) (b : State) :
    (contextDisconnect env c b).registry = b.registry.disconnect c := by
  unfold contextDisconnect Registry.disconnect
  cases hget : b.contexts.get c with
  | none => rw [parties_none hget]
  | some ctx =>
    rw [parties_some hget]
    simp only
    by_cases hstate : ctx.state = .disconnected
    · rw [if_pos hstate]
      exact (if_pos hstate).symm
    · rw [if_neg hstate]
      refine Eq.trans ?_ (if_neg hstate).symm
      have hclose : (b.modifyClient c (·.socketClose)).registry =
          b.registry.modify c (·.socketClose) := by
        apply registry_modify
        exact fun _ => rfl
      refine (registry_modify (party_setState .disconnected) c _).trans ?_
      refine congrArg (Registry.modify c _) ?_
      rw [← hclose, ← @registry_contextSendWill env]
      generalize contextSendWill env c (b.modifyClient c (·.socketClose)) = b'
      unfold Registry.endSession
      cases hget : b'.contexts.get c with
      | none => rw [parties_none hget]
      | some ctx =>
        rw [parties_some hget]
        simp only
        by_cases hzero : ctx.sessionExpiryInterval = 0
        · rw [if_pos hzero]
          refine Eq.trans ?_ (if_pos hzero).symm
          have hbridge : (ctx.bridge = none ∧ ctx.willDelayInterval = 0) ↔
              (party ctx).bridged = false ∧ (party ctx).willDelayInterval = 0 := by
            show _ ↔ ctx.bridge.isSome = false ∧ _
            rw [Option.isSome_eq_false_iff, Option.isNone_iff_eq_none]
            rfl
          by_cases hplain : ctx.bridge = none ∧ ctx.willDelayInterval = 0
          · rw [if_pos hplain, if_pos (hbridge.mp hplain)]
            exact registry_contextAddToDisused c b'
          · rw [if_neg hplain, if_neg (hplain ∘ hbridge.mpr)]
        · rw [if_neg hzero]
          exact (registry_sessionExpiryAdd c b').trans (if_neg hzero).symm

end Refine

section Refine

variable {env : Env} {c : CtxId} {b : State}

theorem registry_contextCleanup (c : CtxId) (b : State) :
    (contextCleanup env c b).registry = b.registry.cleanup c := by
  have hopen : (b.modifyClient c fun ctx => { ctx with cleanStart := true }.socketClose).registry =
      b.registry.modify c fun p => { p with cleanStart := true }.socketClose := by
    apply registry_modify
    exact fun _ => rfl
  unfold contextCleanup Registry.cleanup
  simp only
  rw [← hopen]
  generalize hb₁ : (b.modifyClient c fun ctx => { ctx with cleanStart := true }.socketClose) = b₁
  have hdelete : (({ b₁ with subs := b₁.subs.edit c (subCleanSession c) }.onClient c fun m =>
      (Rc.success, messagesDelete true m)).2).registry = b₁.registry :=
    registry_onClient (f := fun m => (Rc.success, messagesDelete true m))
      (fun m => quiet_messagesDelete true m) c _
  generalize ({ b₁ with subs := b₁.subs.edit c (subCleanSession c) }.onClient c fun m =>
      (Rc.success, messagesDelete true m)).2 = b₂ at hdelete
  rw [← hdelete, ← @registry_contextSendWill env, ← registry_contextRemoveFromById]
  generalize contextRemoveFromById c (contextSendWill env c b₂) = b₃
  refine congrArg (fun f => { b₃.registry with parties := f }) (funext fun d => ?_)
  show ((b₃.contexts.del c).get d).map party = Function.update b₃.registry.parties c none d
  rw [Heap.get_del, Function.update_apply]
  split <;> rfl

theorem registry_contextFreeDisused (b : State) :
    (contextFreeDisused env b).registry = b.registry.freeDisused := by
  have hfold : ∀ (l : List CtxId) (b : State),
      (l.foldl (fun b c => contextCleanup env c b) b).registry =
        l.foldl (fun r c => r.cleanup c) b.registry := by
    intro l
    induction l with
    | nil => exact fun b => rfl
    | cons c l ih =>
      intro b
      rw [List.foldl_cons, List.foldl_cons, ih, registry_contextCleanup]
  exact hfold b.llForFree { b with llForFree := [] }

theorem any_parties (c : CtxId) (b : State) (p : Party → Bool) :
    (b.registry.parties c).any p = (b.contexts.get c).any fun ctx => p (party ctx) :=
  Option.any_map ..

theorem registry_expiryLoop (l : List CtxId) (b : State) :
    (expiryLoop env l b).registry = b.registry.expiryLoop l := by
  induction l generalizing b with
  | nil => rfl
  | cons c rest ih =>
    unfold expiryLoop Registry.expiryLoop
    rw [any_parties]
    by_cases hdue : (b.contexts.get c).any (·.sessionExpiryTime < b.db.nowRealS) = true
    · rw [if_pos hdue]
      refine Eq.trans ?_ (if_pos hdue).symm
      rw [ih, registry_contextAddToDisused, registry_contextSendWill]
      have hreg : ((sessionExpiryRemove c b).modifyClient c fun ctx =>
          { ctx with sessionExpiryInterval := 0, willDelayInterval := 0 }).registry =
          (b.registry.expiryRemove c).modify c fun p =>
            { p with sessionExpiryInterval := 0, willDelayInterval := 0 } := by
        apply registry_modify
        exact fun _ => rfl
      refine congrArg (fun r => Registry.expiryLoop rest (((Registry.delayRemove c r).sendWill c)
        |>.addToDisused c)) hreg
    · rw [if_neg hdue]
      exact (if_neg hdue).symm

theorem registry_sessionExpiryCheck (b : State) :
    (sessionExpiryCheck env b).registry = b.registry.expiryCheck := by
  unfold sessionExpiryCheck Registry.expiryCheck
  by_cases hnow : b.db.nowRealS ≤ b.lastExpiryCheck
  · rw [if_pos hnow]
    exact (if_pos hnow).symm
  · rw [if_neg hnow]
    exact (registry_expiryLoop _ _).trans (if_neg hnow).symm

/-- One round of `will_delay__check`. -/
def fireWill (env : Env) (c : CtxId) (b : State) : State :=
  let b := willDelayRemove c b
  let b := b.modifyClient c fun ctx => { ctx with willDelayInterval := 0 }
  let b := contextSendWill env c b
  if (b.contexts.get c).any (·.sessionExpiryInterval = 0) then contextAddToDisused c b else b

theorem registry_fireWill (c : CtxId) (b : State) :
    (fireWill env c b).registry = b.registry.fire c := by
  have hreg : ((willDelayRemove c b).modifyClient c fun ctx =>
      { ctx with willDelayInterval := 0 }).registry =
      (b.registry.delayRemove c).modify c fun p => { p with willDelayInterval := 0 } := by
    apply registry_modify
    exact fun _ => rfl
  unfold fireWill Registry.fire
  simp only
  rw [← hreg, ← @registry_contextSendWill env, any_parties]
  generalize contextSendWill env c _ = b₁
  by_cases hzero : (b₁.contexts.get c).any (·.sessionExpiryInterval = 0) = true
  · rw [if_pos hzero]
    exact (registry_contextAddToDisused c b₁).trans (if_pos hzero).symm
  · rw [if_neg hzero]
    exact (if_neg hzero).symm

theorem registry_delayLoop (l : List CtxId) (b : State) :
    (delayLoop env l b).registry = b.registry.delayLoop l := by
  induction l generalizing b with
  | nil => rfl
  | cons c rest ih =>
    unfold delayLoop Registry.delayLoop
    rw [any_parties]
    by_cases hdue : (b.contexts.get c).any (·.willDelayTime < b.db.nowRealS) = true
    · rw [if_pos hdue]
      refine Eq.trans ?_ (if_pos hdue).symm
      exact (ih (fireWill env c b)).trans (congrArg _ (registry_fireWill c b))
    · rw [if_neg hdue]
      exact (if_neg hdue).symm

theorem registry_willDelayCheck (b : State) :
    (willDelayCheck env b).registry = b.registry.delayCheck := by
  unfold willDelayCheck Registry.delayCheck
  by_cases hnow : b.db.nowRealS ≤ b.lastDelayCheck
  · rw [if_pos hnow]
    exact (if_pos hnow).symm
  · rw [if_neg hnow]
    exact (registry_delayLoop _ _).trans (if_neg hnow).symm

/-! ### Connecting -/

theorem party_setMsgs (dir : Direction) (md : MsgData) (ctx : Context) :
    party (ctx.setMsgs dir md) = party ctx := by
  cases dir <;> rfl

theorem party_resetQueuedLoop (config : Config) (dir : Direction) (l : List ClientMsg)
    (ctx : Context) : party (resetQueuedLoop config dir l ctx) = party ctx := by
  induction l generalizing ctx with
  | nil => rfl
  | cons msg rest ih =>
    unfold resetQueuedLoop
    refine (ih _).trans ?_
    split
    · exact (party_setMsgs dir _ _).trans (party_setMsgs dir _ _)
    · exact party_setMsgs dir _ _

theorem quiet_resetInflightInLoop (l : List ClientMsg) (m : Machine) :
    Quiet m (resetInflightInLoop l m) := by
  induction l generalizing m with
  | nil => exact .refl m
  | cons msg rest ih =>
    unfold resetInflightInLoop
    refine Quiet.trans ?_ (ih _)
    split
    · exact (quiet_onMsgs .mdIn _ m).trans (quiet_of_rests (rests_messageRemove .mdIn msg _))
    · exact quiet_onMsgs .mdIn _ m

theorem quiet_reconnectResetIncoming (m : Machine) : Quiet m (reconnectResetIncoming m) := by
  have hloop := (quiet_onMsgs .mdIn (·.restart) m).trans
    (quiet_resetInflightInLoop m.ctx.msgsIn.inflight _)
  exact ⟨(party_resetQueuedLoop _ _ _ _).trans hloop.party, hloop.config, hloop.nowRealS⟩

theorem quiet_takeMessages (found : Context) (m : Machine) : Quiet m (takeMessages found m) := by
  unfold takeMessages reconnectReset
  refine Quiet.trans ?_ (quiet_reconnectResetIncoming _)
  exact ⟨party_resetQueuedLoop _ _ _ _, rfl, rfl⟩

theorem quiet_handOver (found : Context) (m : Machine) :
    Quiet m (handOver found m).1 ∧ party (handOver found m).2 = party found := by
  unfold handOver
  by_cases hkeep : m.ctx.cleanStart = false ∧ found.sessionExpiryInterval > 0
  · rw [if_pos hkeep]
    by_cases hcarry : found.Carries
    · have hq := quiet_takeMessages found m
      rw [if_pos hcarry]
      exact ⟨⟨hq.party, hq.config, hq.nowRealS⟩, rfl⟩
    · rw [if_neg hcarry]
      exact ⟨⟨rfl, rfl, rfl⟩, rfl⟩
  · rw [if_neg hkeep]
    exact ⟨.refl m, rfl⟩

theorem registry_handOverSession (found c : CtxId) (b : State) :
    (handOverSession found c b).registry = b.registry := by
  unfold handOverSession
  split
  · rename_i foundCtx ctx hfound hget
    split
    · obtain ⟨hq, hold⟩ := quiet_handOver foundCtx ⟨b.db, ctx⟩
      refine registry_eq (b := b) (fun d => ?_) hq.config hq.nowRealS
      by_cases hd : d = c
      · subst hd
        rw [Heap.get_set_self, hget]
        exact congrArg some hq.party
      · rw [Heap.get_set_ne _ _ hd]
        by_cases hd' : d = found
        · subst hd'
          rw [Heap.get_set_self, hfound]
          exact congrArg some hold
        · rw [Heap.get_set_ne _ _ hd']
    · rfl
  · rfl

theorem registry_takeOver (found c : CtxId) (b : State) :
    (takeOver env found c b).registry = b.registry.takeOver found c := by
  unfold takeOver Registry.takeOver
  cases hfound : b.contexts.get found with
  | none => rw [parties_none hfound]
  | some foundCtx =>
    cases hget : b.contexts.get c with
    | none => rw [parties_some hfound, parties_none hget]
    | some ctx =>
      rw [parties_some hfound, parties_some hget]
      simp only
      have hhand := registry_handOverSession found c b
      have hsubs : (if ctx.cleanStart = true then { handOverSession found c b with
          subs := (handOverSession found c b).subs.edit found (subCleanSession found) }
          else handOverSession found c b).registry = b.registry := by
        split
        · exact hhand
        · exact hhand
      generalize (if ctx.cleanStart = true then { handOverSession found c b with
          subs := (handOverSession found c b).subs.edit found (subCleanSession found) }
          else handOverSession found c b) = b₁ at hsubs
      have hwill : (if willDue foundCtx ctx = true then contextSendWill env found b₁ else b₁).registry =
          if willDue foundCtx ctx = true then b.registry.sendWill found else b.registry := by
        split
        · rw [registry_contextSendWill, hsubs]
        · exact hsubs
      generalize (if willDue foundCtx ctx = true then contextSendWill env found b₁ else b₁) = b₂
        at hwill
      rw [registry_contextDisconnect]
      refine congrArg (Registry.disconnect found) ?_
      refine (registry_modify (g := fun p : Party =>
        { p.willClear with cleanStart := true, sessionExpiryInterval := 0 }.setState .duplicate)
        (fun ctx => ?_) found _).trans ?_
      · refine (party_setState .duplicate _).trans ?_
        refine congrArg (fun p : Party =>
          { p with cleanStart := true, sessionExpiryInterval := 0 }.setState .duplicate)
          (party_willClear ctx)
      · refine congrArg (fun r : Registry => ((r.expiryRemove found).delayRemove found).modify found _)
          hwill

theorem party_connectDone (connectAck : UInt8) (m : Machine) :
    ∃ active : Bool, (active = true ∨ (connectDone env connectAck m).1 ≠ Rc.success) ∧
      party (connectDone env connectAck m).2.ctx =
        (if active then (party m.ctx).setState .active else party m.ctx) ∧
      (connectDone env connectAck m).2.db.config = m.db.config ∧
      (connectDone env connectAck m).2.db.nowRealS = m.db.nowRealS := by
  unfold connectDone
  simp only
  generalize decide (m.db.config.maxKeepalive ≠ 0 ∧
    (m.ctx.keepalive > m.db.config.maxKeepalive ∨ m.ctx.keepalive = 0)) = refused
  generalize hm : (if refused = true then
    { m with ctx := { m.ctx with keepalive := m.db.config.maxKeepalive } } else m) = m₁
  have hq : Quiet m m₁ := by
    rw [← hm]
    split
    · exact ⟨rfl, rfl, rfl⟩
    · exact .refl m
  split
  · have h := hq.trans (@quiet_sendCommand env.net (.connack connectAck 2) m₁)
    have hinval : Rc.inval ≠ Rc.success := by decide
    exact ⟨false, .inr hinval, h.party, h.config, h.nowRealS⟩
  · have hactive : ∀ m₂ : Machine, Quiet { m₁ with ctx := m₁.ctx.setState .active } m₂ →
        party m₂.ctx = (if true then (party m.ctx).setState .active else party m.ctx) ∧
          m₂.db.config = m.db.config ∧ m₂.db.nowRealS = m.db.nowRealS := by
      intro m₂ h
      refine ⟨h.party.trans ?_, h.config.trans hq.config, h.nowRealS.trans hq.nowRealS⟩
      rw [if_pos rfl, ← hq.party]
      exact party_setState .active m₁.ctx
    have hack := @quiet_sendCommand env.net (.connack connectAck 0)
      { m₁ with ctx := m₁.ctx.setState .active }
    have hqueued := hack.trans (quiet_of_rests (rests_messageWriteQueuedOut _))
    refine ⟨true, .inl rfl, ?_⟩
    split
    · exact hactive _ hack
    · split
      · exact hactive _ hqueued
      · exact hactive _ (hqueued.trans (quiet_of_rests (rests_messageWriteInflightOutAll _)))

theorem registry_connectDone (connectAck : UInt8) (c : CtxId) (b : State) :
    ∃ active : Bool,
      (active = true ∨ (b.onClient c (connectDone env connectAck)).1 ≠ Rc.success) ∧
      (b.onClient c (connectDone env connectAck)).2.registry =
        if active then b.registry.modify c (·.setState .active) else b.registry := by
  unfold State.onClient
  split
  · rename_i hget
    refine ⟨true, .inl rfl, ?_⟩
    rw [if_pos rfl, Registry.modify_none (parties_none hget)]
  · rename_i ctx hget
    obtain ⟨active, hrc, hparty, hconfig, hnow⟩ := @party_connectDone env connectAck ⟨b.db, ctx⟩
    generalize connectDone env connectAck ⟨b.db, ctx⟩ = r at hrc hparty hconfig hnow
    refine ⟨active, hrc, ?_⟩
    cases active with
    | false =>
      refine registry_eq (b := b) (fun d => ?_) hconfig hnow
      rw [Heap.get_set]
      split
      · rename_i hd
        rw [hd, hget]
        exact congrArg some hparty
      · rfl
    | true =>
      have hmod : (b.modifyClient c (·.setState .active)).registry =
          b.registry.modify c (·.setState .active) := registry_modify (party_setState .active) c b
      rw [if_pos rfl, ← hmod]
      refine registry_eq (b := b.modifyClient c (·.setState .active)) (fun d => ?_) hconfig hnow
      show _ = ((b.contexts.modify c _).get d).map party
      rw [Heap.get_set, Heap.get_modify]
      split
      · rw [hget]
        exact congrArg some (hparty.trans (party_setState .active ctx).symm)
      · rfl

theorem registry_connectOnAuthorised {ctx : Context} (hget : b.contexts.get c = some ctx)
    (maxQos : Qos) :
    ∃ active : Bool,
      (active = true ∨ (connectOnAuthorised env c maxQos b).1 ≠ Rc.success) ∧
      (connectOnAuthorised env c maxQos b).2.registry =
        let id := ctx.id.getD []
        let r := (b.registry.contextsById id).elim b.registry (b.registry.takeOver · c)
        let r := { r with contextsById := Function.update r.contextsById id (some c) }
        if active then r.modify c (·.setState .active) else r := by
  unfold connectOnAuthorised
  rw [hget]
  simp only
  have htake : ((b.contextsById.get (ctx.id.getD [])).elim b (takeOver env · c b)).registry =
      (b.registry.contextsById (ctx.id.getD [])).elim b.registry (b.registry.takeOver · c) := by
    show _ = (b.contextsById.get _).elim _ _
    cases b.contextsById.get (ctx.id.getD []) with
    | none => rfl
    | some found => exact registry_takeOver found c b
  generalize (b.contextsById.get (ctx.id.getD [])).elim b (takeOver env · c b) = b₁ at htake
  have hcheck : (b₁.onClient c fun m => (Rc.success, connectionCheckAcl env
      { m with ctx := { m.ctx with isDropping := false } })).2.registry = b₁.registry := by
    refine registry_onClient (fun m => ?_) c b₁
    have hdrop : Quiet m { m with ctx := { m.ctx with isDropping := false } } := ⟨rfl, rfl, rfl⟩
    exact hdrop.trans (quiet_connectionCheckAcl _)
  generalize (b₁.onClient c fun m => (Rc.success, connectionCheckAcl env
      { m with ctx := { m.ctx with isDropping := false } })).2 = b₂ at hcheck
  have hids : ({ b₂ with contextsById := b₂.contextsById.set (ctx.id.getD []) c }.modifyClient c
      fun ctx => { ctx with maxQos }).registry =
      { b₁.registry with
        contextsById := Function.update b₁.registry.contextsById (ctx.id.getD []) (some c) } := by
    refine (registry_modifyClient (fun _ => ?_) c _).trans ?_
    · rfl
    · rw [← hcheck]
      refine congrArg (fun f => { b₂.registry with contextsById := f }) (funext fun k => ?_)
      show (b₂.contextsById.set (ctx.id.getD []) c).get k = _
      rw [Heap.get_set, Function.update_apply]
      rfl
  obtain ⟨active, hrc, hdone⟩ := @registry_connectDone env _ c
    ({ b₂ with contextsById := b₂.contextsById.set (ctx.id.getD []) c }.modifyClient c
      fun ctx => { ctx with maxQos })
  refine ⟨active, hrc, hdone.trans ?_⟩
  rw [hids, htake]

/-! ### Events -/

theorem registry_afterError (r : Rc × State) (c : CtxId) :
    (afterError env c r).registry = r.2.registry.afterError (decide (r.1 ≠ Rc.success)) c := by
  unfold afterError Registry.afterError
  by_cases hrc : r.1 ≠ Rc.success
  · rw [if_pos hrc, if_pos (decide_eq_true hrc)]
    exact registry_contextDisconnect c r.2
  · rw [if_neg hrc, if_neg (hrc ∘ of_decide_eq_true)]

theorem registry_handlePacket (r : Rc × State) (c : CtxId) (h : r.2.registry = b.registry) :
    ∃ fail : Bool, (handlePacket env c r).registry = b.registry.afterError fail c := by
  refine ⟨decide (r.1 ≠ Rc.success), (registry_afterError _ c).trans ?_⟩
  rw [registry_sendDisconnect, h]

theorem registry_handleConnect (c : CtxId) (maxQos : Qos) (packet : ConnectPacket) (b : State) :
    ∃ interval active,
      (active = true ∨ (handleConnect env c maxQos packet b).1 ≠ Rc.success) ∧
      (packet.protocol ≠ .mqtt5 → packet.cleanStart = true → interval = 0) ∧
      (handleConnect env c maxQos packet b).2.registry =
        b.registry.connect ⟨interval, active, false⟩ c packet := by
  unfold handleConnect Registry.connect
  rw [any_parties]
  by_cases hnew : (b.contexts.get c).any (·.state = .new) = true
  · rw [if_pos hnew]
    obtain ⟨ctx, hget, -⟩ := (Option.any_eq_true _ _).mp hnew
    have hget' : (b.modifyClient c (·.connect packet)).contexts.get c = some (ctx.connect packet) := by
      show (b.contexts.modify c _).get c = _
      rw [Heap.get_modify, if_pos rfl, hget]
      rfl
    obtain ⟨active, hrc, h⟩ := @registry_connectOnAuthorised env c _ _ hget' maxQos
    have hreg : (b.modifyClient c (·.connect packet)).registry =
        b.registry.modify c (·.connect packet (ctx.connect packet).sessionExpiryInterval) := by
      refine registry_modifyAt fun ctx' hget' => ?_
      cases hget.symm.trans hget'
      exact party_connect packet ctx
    have hclean : packet.protocol ≠ .mqtt5 → packet.cleanStart = true →
        (ctx.connect packet).sessionExpiryInterval = 0 := by
      intro hprotocol hclean
      unfold Context.connect
      simp [hprotocol, hclean]
    refine ⟨(ctx.connect packet).sessionExpiryInterval, active, hrc, hclean, h.trans ?_⟩
    rw [hreg]
    exact (if_pos hnew).symm
  · rw [if_neg hnew]
    have hprotocol : Rc.protocol ≠ Rc.success := by decide
    have hreg : (b.modifyClient c (·.refused)).registry = b.registry.modify c (·.refused) := by
      apply registry_modify
      exact fun _ => rfl
    exact ⟨0, false, .inr hprotocol, fun _ _ => rfl, hreg.trans (if_neg hnew).symm⟩

/-- **The broker refines the registry**: an event does to it what its messages decide, and a
CONNECT that does not make the client active ends the connection. -/
theorem registry_exec (e : Event) (b : State) :
    ∃ o, (o.active = true ∨ o.fail = true) ∧ o.Fits e ∧
      (b.exec env e).registry = b.registry.exec o e := by
  have hpacket : ∀ (c : CtxId) (r : Rc × State), r.2.registry = b.registry →
      ∃ o : Registry.Outcome, (o.active = true ∨ o.fail = true) ∧ True ∧
        (handlePacket env c r).registry = b.registry.afterError o.fail c := by
    intro c r h
    obtain ⟨fail, hr⟩ := @registry_handlePacket env b r c h
    exact ⟨⟨0, true, fail⟩, .inl rfl, trivial, hr⟩
  cases e with
  | accept sock mountPoint =>
    refine ⟨⟨0, true, false⟩, .inl rfl, trivial, ?_⟩
    refine congrArg (fun f => { b.registry with parties := f, nextContext := b.nextContext + 1 })
      (funext fun d => ?_)
    show ((b.contexts.set b.nextContext _).get d).map party =
      Function.update b.registry.parties b.nextContext _ d
    rw [Heap.get_set, Function.update_apply]
    split <;> rfl
  | connect c maxQos packet =>
    obtain ⟨interval, active, hrc, hclean, h⟩ := @registry_handleConnect env c maxQos packet b
    refine ⟨⟨interval, active, decide ((handleConnect env c maxQos packet b).1 ≠ Rc.success)⟩,
      hrc.imp_right decide_eq_true, hclean, (registry_afterError _ c).trans ?_⟩
    rw [h]
    rfl
  | refuse c =>
    refine ⟨⟨0, true, false⟩, .inl rfl, trivial, (registry_contextDisconnect c _).trans ?_⟩
    rw [registry_modify (g := (·.refused)) fun _ => rfl]
    rfl
  | publish c p => exact hpacket c _ (registry_handlePublish c p b)
  | pubrel c p => exact hpacket c _ (registry_handlePubrel c p b)
  | ack c type p =>
    exact hpacket c _ (registry_onClient (fun m => quiet_handlePubackcomp type p m) c b)
  | pubrec c p =>
    exact hpacket c _ (registry_onClient (fun m => quiet_of_rests (rests_handlePubrec p m)) c b)
  | subscribe c p => exact hpacket c _ (registry_handleSubscribe c p b)
  | unsubscribe c p => exact hpacket c _ (registry_handleUnsubscribe c p b)
  | disconnect c packet =>
    refine ⟨⟨0, true, false⟩, .inl rfl, trivial, (registry_contextDisconnect c _).trans ?_⟩
    rw [registry_modify (party_disconnecting packet)]
    rfl
  | write c =>
    refine ⟨⟨0, true, decide ((b.onClient c (packetWrite env)).1 ≠ Rc.success)⟩, .inl rfl, trivial,
      (registry_afterError _ c).trans ?_⟩
    have hsent : ∀ m, Quiet m (packetWrite env m).2 := fun m => quiet_of_rests (rests_sent m _)
    rw [registry_onClient hsent]
    rfl
  | tick nowS nowRealS => exact ⟨⟨0, true, false⟩, .inl rfl, trivial, rfl⟩
  | expiryCheck => exact ⟨⟨0, true, false⟩, .inl rfl, trivial, registry_sessionExpiryCheck b⟩
  | delayCheck => exact ⟨⟨0, true, false⟩, .inl rfl, trivial, registry_willDelayCheck b⟩
  | freeDisused => exact ⟨⟨0, true, false⟩, .inl rfl, trivial, registry_contextFreeDisused b⟩
  | sysTree topic payload =>
    exact ⟨⟨0, true, false⟩, .inl rfl, trivial, registry_messagesEasyQueue _ _ _ b⟩

end Refine

end AdaptiveMqtt.Broker
