import AdaptiveMqtt.Broker.Wills
import AdaptiveMqtt.Broker.Delay

/-!
# The will of one client

A will waits from the moment its client loses the connection until it is queued or dropped. A
client that has neither a will nor a socket queues nothing any more; a client that waits is
left alone by all events but those that decide about its will.
-/

namespace AdaptiveMqtt.Broker

open Lib AdaptiveMqtt.Sub Db

/-- The wills of one client. -/
def own (c : CtxId) (l : Wills) : Wills := l.filter (·.1 = c)

@[simp] theorem own_nil (c : CtxId) : own c [] = [] := rfl

@[simp] theorem own_append (c : CtxId) (l l' : Wills) : own c (l ++ l') = own c l ++ own c l' :=
  List.filter_append ..

/-- The will may be published for any state of a client with this id. -/
def Permits (env : Env) (id : Option Bytes) (w : Will) : Prop :=
  ∀ ctx : Context, ctx.id = id →
    mosquittoAclCheck env ctx w.topic w.payload w.qos w.retain .write = Rc.success

section QueuedWill

variable {env : Env} {c d found : CtxId} {b b' : State} {p : Party} {w : Will}

theorem own_queuedWill_ne (h : d ≠ c) (b : State) : own c (queuedWill env d b) = [] := by
  unfold queuedWill
  split
  · rfl
  · split
    · rfl
    · split
      · rfl
      · split
        · rfl
        · split
          · exact List.filter_cons_of_neg (by simpa using h)
          · rfl

theorem queuedWill_none (h : ∀ p, b.registry.parties c = some p → p.will = none) :
    queuedWill env c b = [] := by
  unfold queuedWill
  split
  · rfl
  · rename_i ctx hget
    rw [show ctx.will = none from h _ (parties_some hget)]

theorem queuedWill_delay (hp : b.registry.parties c = some p) (hd : p.willDelayInterval > 0) :
    queuedWill env c b = [] := by
  obtain ⟨ctx, hget, rfl⟩ := Option.map_eq_some_iff.mp hp
  unfold queuedWill
  rw [hget]
  simp only
  split
  · rfl
  · split
    · rfl
    · rw [if_pos (show ctx.willDelayInterval > 0 from hd)]

theorem queuedWill_due (hp : b.registry.parties c = some p) (hw : p.will = some w)
    (hs : p.state ≠ .disconnecting) (hd : p.willDelayInterval = 0) (hacl : Permits env p.id w) :
    queuedWill env c b = [(c, w)] := by
  obtain ⟨ctx, hget, rfl⟩ := Option.map_eq_some_iff.mp hp
  have hzero : ¬ ctx.willDelayInterval > 0 := by
    rw [show ctx.willDelayInterval = 0 from hd]
    exact lt_irrefl 0
  unfold queuedWill
  rw [hget]
  simp only
  rw [show ctx.will = some w from hw]
  simp only
  rw [if_neg (show ¬ ctx.state = .disconnecting from hs), if_neg hzero, if_pos (hacl ctx rfl)]

theorem own_disconnectWills_ne (h : d ≠ c) (b : State) : own c (disconnectWills env d b) = [] := by
  unfold disconnectWills
  split
  · rfl
  · split
    · rfl
    · exact own_queuedWill_ne h _

theorem own_errorWills_ne (h : d ≠ c) (r : Rc × State) : own c (errorWills env d r) = [] := by
  unfold errorWills
  split
  · exact own_disconnectWills_ne h _
  · rfl

theorem own_takeOverWills_ne (h : found ≠ c) (d : CtxId) (b : State) :
    own c (takeOverWills env found d b) = [] := by
  unfold takeOverWills
  split
  · simp only [own_append, own_disconnectWills_ne h, List.append_nil]
    split
    · exact own_queuedWill_ne h _
    · rfl
  · rfl

/-! ## The states in between -/

theorem registry_socketClose (c : CtxId) (b : State) :
    (b.modifyClient c (·.socketClose)).registry = b.registry.modify c (·.socketClose) := by
  apply registry_modify
  exact fun _ => rfl

theorem registry_expiring (c : CtxId) (b : State) :
    (expiring c b).registry = ((b.registry.expiryRemove c).modify c fun p =>
      { p with sessionExpiryInterval := 0, willDelayInterval := 0 }).delayRemove c := by
  have hreg : ((sessionExpiryRemove c b).modifyClient c fun ctx =>
      { ctx with sessionExpiryInterval := 0, willDelayInterval := 0 }).registry =
      (b.registry.expiryRemove c).modify c fun p =>
        { p with sessionExpiryInterval := 0, willDelayInterval := 0 } := by
    apply registry_modify
    exact fun _ => rfl
  exact congrArg (Registry.delayRemove c) hreg

theorem registry_expired (c : CtxId) (b : State) :
    (contextAddToDisused c (contextSendWill env c (expiring c b))).registry =
      b.registry.expire c := by
  rw [registry_contextAddToDisused, registry_contextSendWill, registry_expiring]
  rfl

theorem registry_undelaying (c : CtxId) (b : State) :
    (undelaying c b).registry =
      (b.registry.delayRemove c).modify c fun p => { p with willDelayInterval := 0 } := by
  unfold undelaying
  apply registry_modify
  exact fun _ => rfl

theorem registry_closing (c : CtxId) (b : State) :
    (closing c b).registry =
      b.registry.modify c fun p => { p with cleanStart := true }.socketClose := by
  have hopen : (b.modifyClient c fun ctx => { ctx with cleanStart := true }.socketClose).registry =
      b.registry.modify c fun p => { p with cleanStart := true }.socketClose := by
    apply registry_modify
    exact fun _ => rfl
  rw [← hopen]
  exact registry_onClient (f := fun m => (Rc.success, messagesDelete true m))
    (fun m => quiet_messagesDelete true m) c _

theorem registry_superseded (found c : CtxId) (b : State) :
    (superseded found c b).registry = b.registry := by
  have hhand := registry_handOverSession found c b
  unfold superseded
  simp only
  split
  · exact hhand
  · exact hhand

theorem registry_relieved (found : CtxId) (b : State) :
    (relieved found b).registry =
      ((b.registry.expiryRemove found).delayRemove found).modify found (·.takenOver) := by
  unfold relieved
  refine registry_modify (fun ctx => ?_) found _
  refine (party_setState .duplicate _).trans ?_
  exact congrArg (fun p : Party =>
    { p with cleanStart := true, sessionExpiryInterval := 0 }.setState .duplicate)
    (party_willClear ctx)

/-! ## Silence -/

open Registry in
theorem own_queuedWill_silent (h : Has Party.Silent c b.registry) (d : CtxId) :
    own c (queuedWill env d b) = [] := by
  by_cases hd : d = c
  · subst hd
    rw [queuedWill_none fun p hp => (h p hp).1]
    rfl
  · exact own_queuedWill_ne hd b

open Registry in
theorem own_disconnectWills_silent (h : Has Party.Silent c b.registry) (d : CtxId) :
    own c (disconnectWills env d b) = [] := by
  unfold disconnectWills
  split
  · rfl
  · split
    · rfl
    · refine own_queuedWill_silent ?_ d
      rw [registry_socketClose]
      exact has_modify h trait_silent.socketClose d

open Registry in
theorem own_freeWills_silent (l : List CtxId) (h : Has Party.Silent c b.registry) :
    own c (freeWills env l b) = [] := by
  induction l generalizing b with
  | nil => rfl
  | cons d l ih =>
    have hclosing : Has Party.Silent c (closing d b).registry := by
      rw [registry_closing]
      refine has_modify h (fun {p} hp => ?_) d
      exact ⟨hp.1, rfl⟩
    have hrest : Has Party.Silent c (contextCleanup env d b).registry := by
      rw [registry_contextCleanup]
      exact has_cleanup h d
    unfold freeWills cleanupWills
    rw [own_append, own_queuedWill_silent hclosing d, ih hrest]
    rfl

open Registry in
theorem own_expiryWills_silent (l : List CtxId) (h : Has Party.Silent c b.registry) :
    own c (expiryWills env l b) = [] := by
  induction l generalizing b with
  | nil => rfl
  | cons d l ih =>
    have hmid : Has Party.Silent c (expiring d b).registry := by
      rw [registry_expiring]
      have hrem : Has Party.Silent c (b.registry.expiryRemove d) := h
      exact has_modify hrem trait_silent.ended d
    have hrest : Has Party.Silent c
        (contextAddToDisused d (contextSendWill env d (expiring d b))).registry := by
      rw [registry_expired]
      exact has_expire trait_silent h d
    unfold expiryWills
    split
    · rw [own_append, own_queuedWill_silent hmid d, ih hrest]
      rfl
    · rfl

open Registry in
theorem own_delayWills_silent (l : List CtxId) (h : Has Party.Silent c b.registry) :
    own c (delayWills env l b) = [] := by
  induction l generalizing b with
  | nil => rfl
  | cons d l ih =>
    have hmid : Has Party.Silent c (undelaying d b).registry := by
      rw [registry_undelaying]
      have hrem : Has Party.Silent c (b.registry.delayRemove d) := h
      exact has_modify hrem trait_silent.undelayed d
    have hrest : Has Party.Silent c (fireWill env d b).registry := by
      rw [registry_fireWill]
      exact has_fire trait_silent h d
    unfold delayWills
    split
    · rw [own_append, own_queuedWill_silent hmid d, ih hrest]
      rfl
    · rfl

open Registry in
theorem own_takeOverWills_silent (h : Has Party.Silent c b.registry) (found d : CtxId) :
    own c (takeOverWills env found d b) = [] := by
  have hover : Has Party.Silent c (superseded found d b).registry := by
    rw [registry_superseded]
    exact h
  have hrelieved : ∀ {b'}, Has Party.Silent c b'.registry →
      Has Party.Silent c (relieved found b').registry := by
    intro b' h'
    rw [registry_relieved]
    have hrem : Has Party.Silent c ((b'.registry.expiryRemove found).delayRemove found) := h'
    refine has_modify hrem (fun hp => ?_) found
    exact trait_silent.setState .duplicate (trait_silent.settled (trait_silent.willClear hp))
  unfold takeOverWills
  split
  · simp only [own_append]
    split
    · have hsent : Has Party.Silent c (contextSendWill env found (superseded found d b)).registry := by
        rw [registry_contextSendWill]
        exact has_sendWill trait_silent hover found
      rw [own_queuedWill_silent hover found, own_disconnectWills_silent (hrelieved hsent) found]
      rfl
    · rw [own_disconnectWills_silent (hrelieved hover) found]
      rfl
  · rfl

end QueuedWill

/-! ## An event after the will is gone -/

namespace Registry

variable {r : Registry} {c d : CtxId}

theorem nextContext_exec (o : Outcome) (e : Event) (r : Registry) :
    r.nextContext ≤ (r.exec o e).nextContext := by
  have hdisconnect : ∀ (d : CtxId) (r : Registry), (r.disconnect d).nextContext = r.nextContext :=
    fun d r => (only_disconnect d r).nextContext
  have herror : ∀ (d : CtxId) (r : Registry), (r.afterError o.fail d).nextContext = r.nextContext := by
    intro d r
    unfold afterError
    split
    · exact hdisconnect d r
    · rfl
  have hfold : ∀ {op : CtxId → Registry → Registry}, (∀ d r, (op d r).nextContext = r.nextContext) →
      ∀ (l : List CtxId) (r : Registry), (l.foldl (fun r d => op d r) r).nextContext =
        r.nextContext := by
    intro op hop l
    induction l with
    | nil => exact fun r => rfl
    | cons d l ih => exact fun r => (ih _).trans (hop d r)
  cases e with
  | accept sock mountPoint => exact Nat.le_succ _
  | connect d maxQos packet =>
    refine (Eq.trans (herror d _) ?_).ge
    unfold connect
    split
    · simp only
      have hover : ∀ (o : Option CtxId) (r : Registry),
          (o.elim r (r.takeOver · d)).nextContext = r.nextContext := by
        intro o r
        cases o with
        | none => rfl
        | some found =>
          show (r.takeOver found d).nextContext = _
          unfold takeOver
          split
          · refine (hdisconnect found _).trans ?_
            simp only
            split
            · exact (only_sendWill found r).nextContext
            · rfl
          · rfl
      split
      · exact hover _ _
      · exact hover _ _
    · rfl
  | refuse d => exact (hdisconnect d (r.modify d (·.refused))).ge
  | disconnect d packet => exact (hdisconnect d (r.modify d (·.disconnecting packet))).ge
  | tick nowS nowRealS => exact le_refl _
  | expiryCheck =>
    have hloop : ∀ (l : List CtxId) (r : Registry), (r.expiryLoop l).nextContext = r.nextContext := by
      intro l
      induction l with
      | nil => exact fun r => rfl
      | cons d l ih =>
        intro r
        unfold expiryLoop
        split
        · exact (ih _).trans (only_expire d r).nextContext
        · rfl
    show _ ≤ r.expiryCheck.nextContext
    unfold expiryCheck
    split
    · exact le_refl _
    · exact (hloop _ { r with lastExpiryCheck := r.now }).ge
  | delayCheck =>
    have hloop : ∀ (l : List CtxId) (r : Registry), (r.delayLoop l).nextContext = r.nextContext := by
      intro l
      induction l with
      | nil => exact fun r => rfl
      | cons d l ih =>
        intro r
        unfold delayLoop
        split
        · exact (ih _).trans (only_fire d r).nextContext
        · rfl
    show _ ≤ r.delayCheck.nextContext
    unfold delayCheck
    split
    · exact le_refl _
    · exact (hloop _ { r with lastDelayCheck := r.now }).ge
  | freeDisused =>
    refine (hfold (fun d r => ?_) r.llForFree { r with llForFree := [] }).ge
    exact (only_removeFromById d _).nextContext.trans (only_sendWill d _).nextContext
  | sysTree topic payload => exact le_refl _
  | publish d packet => exact (herror d r).ge
  | pubrel d packet => exact (herror d r).ge
  | ack d type packet => exact (herror d r).ge
  | pubrec d packet => exact (herror d r).ge
  | subscribe d packet => exact (herror d r).ge
  | unsubscribe d packet => exact (herror d r).ge
  | write d => exact (herror d r).ge

end Registry

section Silent

variable {env : Env} {c d : CtxId} {b : State} {e : Event}

open Registry

/-- A client without a socket sends no packets. -/
theorem source_ne (h : ∀ p, b.registry.parties c = some p → p.sock = none)
    (hready : e.ready b = true) (hd : e.source = some d) : d ≠ c := by
  rintro rfl
  obtain ⟨p, hp, hopen⟩ := Event.open_source hready hd
  exact hopen (h p hp)

theorem own_packetWills (h : d ≠ c) (r : Rc × State) : own c (packetWills env d r) = [] :=
  own_errorWills_ne h _

theorem own_wills_silent (h : Has Party.Silent c b.registry) (hready : e.ready b = true) :
    own c (e.wills env b) = [] := by
  have hne : ∀ {d}, e.source = some d → d ≠ c := source_ne (fun p hp => (h p hp).2) hready
  cases e with
  | accept sock mountPoint => rfl
  | connect d maxQos p =>
    have hd := hne rfl
    have hread : Has Party.Silent c (b.modifyClient d (·.connect p)).registry := by
      refine h.of_eq ?_
      show ((b.contexts.modify d _).get c).map party = (b.contexts.get c).map party
      rw [Heap.get_modify, if_neg hd.symm]
    show own c (connectWills env d p b ++ errorWills env d _) = []
    rw [own_append, own_errorWills_ne hd, List.append_nil]
    unfold connectWills
    split
    · simp only
      cases (b.modifyClient d (·.connect p)).contextsById.get p.clientId with
      | none => rfl
      | some found => exact own_takeOverWills_silent hread found d
    · rfl
  | refuse d => exact own_disconnectWills_ne (hne rfl) _
  | publish d p => exact own_packetWills (hne rfl) _
  | pubrel d p => exact own_packetWills (hne rfl) _
  | ack d type p => exact own_packetWills (hne rfl) _
  | pubrec d p => exact own_packetWills (hne rfl) _
  | subscribe d p => exact own_packetWills (hne rfl) _
  | unsubscribe d p => exact own_packetWills (hne rfl) _
  | disconnect d packet => exact own_disconnectWills_ne (hne rfl) _
  | write d => exact own_errorWills_ne (hne rfl) _
  | tick nowS nowRealS => rfl
  | expiryCheck =>
    show own c (if _ then _ else _) = []
    split
    · rfl
    · exact own_expiryWills_silent _ h
  | delayCheck =>
    show own c (if _ then _ else _) = []
    split
    · rfl
    · exact own_delayWills_silent _ h
  | freeDisused => exact own_freeWills_silent _ h
  | sysTree topic payload => rfl

/-- **Once its will is gone a client is silent for ever.** -/
theorem silent_step (h : Has Party.Silent c b.registry) (hc : c < b.registry.nextContext)
    (hready : e.ready b = true) :
    own c (e.wills env b) = [] ∧ Has Party.Silent c (b.exec env e).registry ∧
      c < (b.exec env e).registry.nextContext := by
  have hne : ∀ {d}, e.source = some d → d ≠ c := source_ne (fun p hp => (h p hp).2) hready
  obtain ⟨o, -, -, hexec⟩ := @registry_exec env e b
  refine ⟨own_wills_silent h hready, ?_, ?_⟩
  · rw [hexec]
    refine has_exec trait_silent h (fun he => absurd hc (he ▸ lt_irrefl _))
      (fun hs => absurd rfl (hne hs)) (fun hs => absurd rfl (hne hs)) fun maxQos packet he => ?_
    subst he
    exact absurd rfl (hne rfl)
  · rw [hexec]
    exact hc.trans_le (nextContext_exec o e _)

end Silent

end AdaptiveMqtt.Broker
