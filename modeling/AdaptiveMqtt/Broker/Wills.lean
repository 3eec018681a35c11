import AdaptiveMqtt.Broker.Traits

/-!
# Wills

The wills that an event queues for delivery, with the clients they belong to: what
`context__send_will` gives to `db__messages_easy_queue` in each of its calls. `passed` grows by
exactly these, apart from what a PUBLISH, a PUBREL or the `$SYS` tree pass on.
-/

namespace AdaptiveMqtt.Broker

open Lib AdaptiveMqtt.Sub Db

/-! ## What is queued -/

abbrev Wills := List (CtxId × Will)

def queuedWill (env : Env) (c : CtxId) (b : State) : Wills :=
  match b.contexts.get c with
  | none => []
  | some ctx =>
    match ctx.will with
    | none => []
    | some will =>
      if ctx.state = .disconnecting then []
      else if ctx.willDelayInterval > 0 then []
      else if mosquittoAclCheck env ctx will.topic will.payload will.qos will.retain .write =
          Rc.success then [(c, will)]
      else []

def disconnectWills (env : Env) (c : CtxId) (b : State) : Wills :=
  match b.contexts.get c with
  | none => []
  | some ctx =>
    if ctx.state = .disconnected then [] else queuedWill env c (b.modifyClient c (·.socketClose))

/-- A client as `context__cleanup` leaves it to `context__send_will`. -/
def closing (c : CtxId) (b : State) : State :=
  let b := b.modifyClient c fun ctx => { ctx with cleanStart := true }.socketClose
  let b := { b with subs := b.subs.edit c (subCleanSession c) }
  (b.onClient c fun m => (Rc.success, messagesDelete true m)).2

def cleanupWills (env : Env) (c : CtxId) (b : State) : Wills := queuedWill env c (closing c b)

def freeWills (env : Env) : List CtxId → State → Wills
  | [], _ => []
  | c :: rest, b => cleanupWills env c b ++ freeWills env rest (contextCleanup env c b)

/-- A client as `session_expiry__check` leaves it to `context__send_will`. -/
def expiring (c : CtxId) (b : State) : State :=
  willDelayRemove c ((sessionExpiryRemove c b).modifyClient c fun ctx =>
    { ctx with sessionExpiryInterval := 0, willDelayInterval := 0 })

def expiryWills (env : Env) : List CtxId → State → Wills
  | [], _ => []
  | c :: rest, b =>
    if (b.contexts.get c).any (·.sessionExpiryTime < b.db.nowRealS) then
      queuedWill env c (expiring c b) ++
        expiryWills env rest (contextAddToDisused c (contextSendWill env c (expiring c b)))
    else []

/-- A client as `will_delay__check` leaves it to `context__send_will`. -/
def undelaying (c : CtxId) (b : State) : State :=
  (willDelayRemove c b).modifyClient c fun ctx => { ctx with willDelayInterval := 0 }

def delayWills (env : Env) : List CtxId → State → Wills
  | [], _ => []
  | c :: rest, b =>
    if (b.contexts.get c).any (·.willDelayTime < b.db.nowRealS) then
      queuedWill env c (undelaying c b) ++ delayWills env rest (fireWill env c b)
    else []

/-- An old connection before its will is looked at, and before it is disconnected. -/
def superseded (found c : CtxId) (b : State) : State :=
  let clean := (b.contexts.get c).any (·.cleanStart)
  let b := handOverSession found c b
  if clean then { b with subs := b.subs.edit found (subCleanSession found) } else b

def relieved (found : CtxId) (b : State) : State :=
  (willDelayRemove found (sessionExpiryRemove found b)).modifyClient found fun ctx =>
    { ctx.willClear with cleanStart := true, sessionExpiryInterval := 0 }.setState .duplicate

/-- In `connect__on_authorised`. -/
def takeOverWills (env : Env) (found c : CtxId) (b : State) : Wills :=
  match b.contexts.get found, b.contexts.get c with
  | some foundCtx, some ctx =>
    let b := superseded found c b
    (if willDue foundCtx ctx then queuedWill env found b else []) ++
      disconnectWills env found
        (relieved found (if willDue foundCtx ctx then contextSendWill env found b else b))
  | _, _ => []

def connectWills (env : Env) (c : CtxId) (p : ConnectPacket) (b : State) : Wills :=
  if (b.contexts.get c).any (·.state = .new) then
    let b := b.modifyClient c (·.connect p)
    (b.contextsById.get p.clientId).elim [] (takeOverWills env · c b)
  else []

/-- When the main loop disconnects a client after an error. -/
def errorWills (env : Env) (c : CtxId) (r : Rc × State) : Wills :=
  if r.1 ≠ Rc.success then disconnectWills env c r.2 else []

def packetWills (env : Env) (c : CtxId) (r : Rc × State) : Wills :=
  errorWills env c (r.1, (r.2.onClient c (sendDisconnect env r.1)).2)

def Event.wills (env : Env) (b : State) : Event → Wills
  | .accept _ _ | .tick _ _ | .sysTree _ _ => []
  | .connect c maxQos p =>
    connectWills env c p b ++ errorWills env c (handleConnect env c maxQos p b)
  | .refuse c => disconnectWills env c (b.modifyClient c (·.refused))
  | .publish c p => packetWills env c (handlePublish env c p b)
  | .pubrel c p => packetWills env c (handlePubrel env c p b)
  | .ack c type p => packetWills env c (b.onClient c (handlePubackcomp env.net type p))
  | .pubrec c p => packetWills env c (b.onClient c (handlePubrec env.net p))
  | .subscribe c p => packetWills env c (handleSubscribe env c p b)
  | .unsubscribe c p => packetWills env c (handleUnsubscribe env c p b)
  | .disconnect c packet => disconnectWills env c (b.modifyClient c (·.disconnecting packet))
  | .write c => errorWills env c (b.onClient c (packetWrite env))
  | .expiryCheck =>
    if b.db.nowRealS ≤ b.lastExpiryCheck then []
    else expiryWills env b.expiryList { b with lastExpiryCheck := b.db.nowRealS }
  | .delayCheck =>
    if b.db.nowRealS ≤ b.lastDelayCheck then []
    else delayWills env b.delayList { b with lastDelayCheck := b.db.nowRealS }
  | .freeDisused => freeWills env b.llForFree { b with llForFree := [] }

/-! ## What is passed on -/

/-- What subscribers see of a message. -/
def MsgStore.text (m : MsgStore) : Bytes × Bytes × Qos × List Property :=
  (m.topic, m.payload, m.qos, m.properties)

def willText (x : CtxId × Will) : Bytes × Bytes × Qos × List Property :=
  (x.2.topic, x.2.payload, x.2.qos, x.2.properties)

/-- `passed` has grown by wills. -/
def Queues (l : Wills) (b b' : State) : Prop :=
  ∃ msgs, b'.passed = b.passed ++ msgs ∧ msgs.map MsgStore.text = l.map willText

section Queues

variable {env : Env} {c : CtxId} {b b' b'' : State} {l l' : Wills}

theorem Queues.of_eq (h : b'.passed = b.passed) : Queues [] b b' :=
  ⟨[], h.trans (List.append_nil _).symm, rfl⟩

theorem Queues.trans (h : Queues l b b') (h' : Queues l' b' b'') : Queues (l ++ l') b b'' := by
  obtain ⟨msgs, hp, ht⟩ := h
  obtain ⟨msgs', hp', ht'⟩ := h'
  refine ⟨msgs ++ msgs', ?_, ?_⟩
  · rw [hp', hp, List.append_assoc]
  · rw [List.map_append, List.map_append, ht, ht']

/-- What happens without a message changes nothing. -/
theorem Queues.before (h : Queues l b' b'') (hp : b'.passed = b.passed) : Queues l b b'' := by
  unfold Queues at h ⊢
  rw [← hp]
  exact h

theorem Queues.after (h : Queues l b b') (hp : b''.passed = b'.passed) : Queues l b b'' := by
  unfold Queues at h ⊢
  rw [hp]
  exact h

theorem passed_onClient (f : Machine → Rc × Machine) (c : CtxId) (b : State) :
    (b.onClient c f).2.passed = b.passed := by
  unfold State.onClient
  split <;> rfl

theorem passed_subsSend (topic : Bytes) (qos : Qos) (retain : Bool) (stored : MsgStore)
    (leaf : SubLeaf) (b : State) :
    (subsSend env topic qos retain stored leaf b).2.passed = b.passed := by
  unfold subsSend
  split
  · rfl
  · simp only
    split
    · rfl
    · split
      · exact passed_onClient _ _ b
      · rfl

theorem passed_subMessagesQueue (sourceId topic : Bytes) (qos : Qos) (retain : Bool)
    (stored : MsgStore) (b : State) :
    (subMessagesQueue env sourceId topic qos retain stored b).2.passed = b.passed ++ [stored] := by
  unfold subMessagesQueue
  simp only
  split
  · rfl
  · rename_i splitTopics _ _
    have hsearch : ∀ b : State, (subSend env sourceId topic qos retain stored splitTopics b).2.passed =
        b.passed := by
      intro b
      refine keeps_searchRoot (P := fun b' : State => b'.passed = b.passed) ?_ _ _ rfl
      exact fun _ _ leaf b' h => (passed_subsSend topic qos retain stored leaf b').trans h
    have hretain : ∀ b : State, (retainStore stored splitTopics b).passed = b.passed := by
      intro b
      unfold retainStore setRetained
      simp only
      split <;> rfl
    split
    · exact (hretain _).trans (hsearch _)
    · exact hsearch _

theorem passed_willDelayAdd (c : CtxId) (b : State) : (willDelayAdd c b).passed = b.passed := by
  unfold willDelayAdd
  split
  · rfl
  · split <;> rfl

theorem passed_contextAddToDisused (c : CtxId) (b : State) :
    (contextAddToDisused c b).passed = b.passed := by
  have hremove : ∀ b : State, (contextRemoveFromById c b).passed = b.passed := by
    intro b
    unfold contextRemoveFromById
    split
    · rfl
    · split
      · rfl
      · split <;> rfl
  unfold contextAddToDisused
  split
  · rfl
  · split
    · rfl
    · exact hremove _

theorem queues_contextSendWill (c : CtxId) (b : State) :
    Queues (queuedWill env c b) b (contextSendWill env c b) := by
  unfold queuedWill contextSendWill
  cases hget : b.contexts.get c with
  | none => exact .of_eq rfl
  | some ctx =>
    simp only
    cases hwill : ctx.will with
    | none => exact .of_eq rfl
    | some will =>
      simp only
      by_cases hstate : ctx.state = .disconnecting
      · rw [if_pos hstate, if_pos hstate]
        exact .of_eq rfl
      rw [if_neg hstate, if_neg hstate]
      by_cases hdelay : ctx.willDelayInterval > 0
      · rw [if_pos hdelay, if_pos hdelay]
        exact .of_eq (passed_willDelayAdd c b)
      rw [if_neg hdelay, if_neg hdelay]
      by_cases hacl : mosquittoAclCheck env ctx will.topic will.payload will.qos will.retain .write =
          Rc.success
      · rw [if_pos hacl, if_pos hacl]
        exact ⟨_, passed_subMessagesQueue _ _ _ _ _ _, rfl⟩
      · rw [if_neg hacl, if_neg hacl]
        exact .of_eq rfl

theorem queues_contextDisconnect (c : CtxId) (b : State) :
    Queues (disconnectWills env c b) b (contextDisconnect env c b) := by
  have hend : ∀ b' : State, (match b'.contexts.get c with
      | none => b'
      | some ctx =>
        if ctx.sessionExpiryInterval = 0 then
          if ctx.bridge = none ∧ ctx.willDelayInterval = 0 then contextAddToDisused c b' else b'
        else sessionExpiryAdd c b').passed = b'.passed := by
    intro b'
    split
    · rfl
    · split
      · split
        · exact passed_contextAddToDisused c b'
        · rfl
      · unfold sessionExpiryAdd
        split
        · rfl
        · simp only
          split <;> rfl
  unfold disconnectWills contextDisconnect
  cases hget : b.contexts.get c with
  | none => exact .of_eq rfl
  | some ctx =>
    simp only
    by_cases hstate : ctx.state = .disconnected
    · rw [if_pos hstate, if_pos hstate]
      exact .of_eq rfl
    · rw [if_neg hstate, if_neg hstate]
      exact ((queues_contextSendWill c _).before rfl).after (hend _)

theorem queues_contextCleanup (c : CtxId) (b : State) :
    Queues (cleanupWills env c b) b (contextCleanup env c b) := by
  have hremove : ∀ b : State, (contextRemoveFromById c b).passed = b.passed := by
    intro b
    unfold contextRemoveFromById
    split
    · rfl
    · split
      · rfl
      · split <;> rfl
  have hclosing : (closing c b).passed = b.passed := passed_onClient _ _ _
  exact ((queues_contextSendWill c (closing c b)).before hclosing).after (hremove _)

theorem queues_freeWills (l : List CtxId) (b : State) :
    Queues (freeWills env l b) b (l.foldl (fun b c => contextCleanup env c b) b) := by
  induction l generalizing b with
  | nil => exact .of_eq rfl
  | cons c l ih => exact (queues_contextCleanup c b).trans (ih _)

theorem queues_expiryWills (l : List CtxId) (b : State) :
    Queues (expiryWills env l b) b (expiryLoop env l b) := by
  induction l generalizing b with
  | nil => exact .of_eq rfl
  | cons c l ih =>
    unfold expiryWills expiryLoop
    split
    · have hsent := (@queues_contextSendWill env c (expiring c b)).after
        (passed_contextAddToDisused c _)
      exact (hsent.before rfl).trans (ih _)
    · exact .of_eq rfl

theorem queues_delayWills (l : List CtxId) (b : State) :
    Queues (delayWills env l b) b (delayLoop env l b) := by
  have hfire : ∀ (c : CtxId) (b : State), Queues (queuedWill env c (undelaying c b)) b
      (fireWill env c b) := by
    intro c b
    have hsent := (@queues_contextSendWill env c (undelaying c b)).before (b := b) rfl
    unfold fireWill
    simp only
    split
    · exact hsent.after (passed_contextAddToDisused c _)
    · exact hsent
  induction l generalizing b with
  | nil => exact .of_eq rfl
  | cons c l ih =>
    unfold delayWills delayLoop
    split
    · exact (hfire c b).trans (ih _)
    · exact .of_eq rfl

theorem takeOver_eq_relieved {found : CtxId} {foundCtx ctx : Context}
    (hfound : b.contexts.get found = some foundCtx) (hget : b.contexts.get c = some ctx) :
    takeOver env found c b = contextDisconnect env found (relieved found
      (if willDue foundCtx ctx then contextSendWill env found (superseded found c b)
        else superseded found c b)) := by
  unfold takeOver superseded
  rw [hfound, hget]
  rfl

theorem queues_takeOver (found c : CtxId) (b : State) :
    Queues (takeOverWills env found c b) b (takeOver env found c b) := by
  cases hfound : b.contexts.get found with
  | none =>
    unfold takeOverWills takeOver
    rw [hfound]
    exact .of_eq rfl
  | some foundCtx =>
    cases hget : b.contexts.get c with
    | none =>
      unfold takeOverWills takeOver
      rw [hfound, hget]
      exact .of_eq rfl
    | some ctx =>
      have hover : (superseded found c b).passed = b.passed := by
        have hhand : (handOverSession found c b).passed = b.passed := by
          unfold handOverSession
          split
          · split <;> rfl
          · rfl
        unfold superseded
        simp only
        split
        · exact hhand
        · exact hhand
      rw [takeOver_eq_relieved hfound hget]
      unfold takeOverWills
      rw [hfound, hget]
      simp only
      by_cases hdue : willDue foundCtx ctx = true
      · rw [if_pos hdue, if_pos hdue]
        exact ((queues_contextSendWill found _).before hover).trans
          ((queues_contextDisconnect found _).before rfl)
      · rw [if_neg hdue, if_neg hdue]
        exact (Queues.of_eq hover).trans ((queues_contextDisconnect found _).before rfl)

theorem queues_handleConnect (c : CtxId) (maxQos : Qos) (p : ConnectPacket) (b : State) :
    Queues (connectWills env c p b) b (handleConnect env c maxQos p b).2 := by
  unfold connectWills handleConnect
  split
  · rename_i hnew
    obtain ⟨ctx, hget, -⟩ := (Option.any_eq_true _ _).mp hnew
    have hget' : (b.modifyClient c (·.connect p)).contexts.get c = some (ctx.connect p) := by
      show (b.contexts.modify c _).get c = _
      rw [Heap.get_modify, if_pos rfl, hget]
      rfl
    have hid : (ctx.connect p).id.getD [] = p.clientId := rfl
    simp only
    unfold connectOnAuthorised
    rw [hget']
    simp only
    rw [hid]
    refine Queues.after ?_ (passed_onClient _ _ _)
    generalize hb : b.modifyClient c (·.connect p) = b₁
    have hp : b₁.passed = b.passed := by rw [← hb]; rfl
    have hover : Queues ((b₁.contextsById.get p.clientId).elim [] (takeOverWills env · c b₁)) b₁
        ((b₁.contextsById.get p.clientId).elim b₁ (takeOver env · c b₁)) := by
      cases b₁.contextsById.get p.clientId with
      | none => exact .of_eq rfl
      | some found => exact queues_takeOver found c b₁
    exact (hover.before hp).after (passed_onClient _ _ _)
  · exact .of_eq rfl

theorem queues_afterError (c : CtxId) (r : Rc × State) :
    Queues (errorWills env c r) r.2 (afterError env c r) := by
  unfold errorWills afterError
  split
  · exact queues_contextDisconnect c r.2
  · exact .of_eq rfl

/-- What an event passes on before the connection may end. -/
def Event.before (env : Env) (b : State) : Event → State
  | .publish c p => (handlePublish env c p b).2
  | .pubrel c p => (handlePubrel env c p b).2
  | .subscribe c p => (handleSubscribe env c p b).2
  | .unsubscribe c p => (handleUnsubscribe env c p b).2
  | .sysTree topic payload => b.exec env (.sysTree topic payload)
  | _ => b

/-- **The log is what is passed on**: after the packet itself, `passed` grows by the wills. -/
theorem queues_exec (e : Event) (b : State) :
    Queues (e.wills env b) (e.before env b) (b.exec env e) := by
  have hpacket : ∀ (c : CtxId) (r : Rc × State),
      Queues (packetWills env c r) r.2 (handlePacket env c r) := fun c r =>
    (queues_afterError c _).before (passed_onClient _ _ _)
  cases e with
  | accept sock mountPoint => exact .of_eq rfl
  | connect c maxQos p => exact (queues_handleConnect c maxQos p b).trans (queues_afterError c _)
  | refuse c => exact (queues_contextDisconnect c _).before rfl
  | publish c p => exact hpacket c _
  | pubrel c p => exact hpacket c _
  | ack c type p => exact (hpacket c _).before (passed_onClient _ _ _)
  | pubrec c p => exact (hpacket c _).before (passed_onClient _ _ _)
  | subscribe c p => exact hpacket c _
  | unsubscribe c p => exact hpacket c _
  | disconnect c packet => exact (queues_contextDisconnect c _).before rfl
  | write c => exact (queues_afterError c _).before (passed_onClient _ _ _)
  | tick nowS nowRealS => exact .of_eq rfl
  | expiryCheck =>
    show Queues (if _ then _ else _) b (if _ then _ else _)
    by_cases hnow : b.db.nowRealS ≤ b.lastExpiryCheck
    · rw [if_pos hnow, if_pos hnow]
      exact .of_eq rfl
    · rw [if_neg hnow, if_neg hnow]
      exact (queues_expiryWills _ _).before rfl
  | delayCheck =>
    show Queues (if _ then _ else _) b (if _ then _ else _)
    by_cases hnow : b.db.nowRealS ≤ b.lastDelayCheck
    · rw [if_pos hnow, if_pos hnow]
      exact .of_eq rfl
    · rw [if_neg hnow, if_neg hnow]
      exact (queues_delayWills _ _).before rfl
  | freeDisused => exact (queues_freeWills _ _).before rfl
  | sysTree topic payload => exact .of_eq rfl

end Queues

end AdaptiveMqtt.Broker
