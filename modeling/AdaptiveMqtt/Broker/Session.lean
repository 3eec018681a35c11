import AdaptiveMqtt.Broker.Handle
import AdaptiveMqtt.Lib.Agenda

/-!
# Connections and sessions

`connect__on_authorised` with the take-over of an old session, `context__disconnect`,
`context__cleanup`, the lists of sessions that expire and of wills that are delayed, and
the events of the main loop. Authentication has succeeded, and `acl__find_acls` does.
-/

/-! ## Fields of a client -/

namespace AdaptiveMqtt.Db

/-- A CONNECT packet as it is read: `thresholdL` is there if flag bit 0 is set, and
`clientId` is the one the client gets. -/
structure ConnectPacket where
  clientId : Bytes
  protocol : Protocol
  isBridge : Bool
  cleanStart : Bool
  keepalive : Nat
  properties : List Property
  will : Option Will
  willDelayInterval : Nat
  thresholdL : Option UInt32

namespace Context

def setState (state : ClientState) (ctx : Context) : Context :=
  if ctx.state ≠ .disused then { ctx with state } else ctx

/-- `net__socket_close`: the listener with its mount point goes with the socket. -/
def socketClose (ctx : Context) : Context := { ctx with sock := none, mountPoint := none }

def willClear (ctx : Context) : Context :=
  if ctx.will.isSome then { ctx with will := none, willDelayInterval := 0 } else ctx

def processConnect : List Property → Context → Context
  | [], ctx => ctx
  | p :: properties, ctx =>
    match p.identifier, p.value with
    | 17, .int32 value =>
      processConnect properties { ctx with sessionExpiryInterval := value.toNat }
    | 33, .int16 value =>
      if value = 0 then ctx
      else processConnect properties { ctx with msgsOut :=
        { ctx.msgsOut with inflightMaximum := value.toNat, inflightQuota := value.toNat } }
    | 39, .int32 value =>
      if value = 0 then ctx
      else processConnect properties { ctx with maximumPacketSize := value.toNat }
    | _, _ => processConnect properties ctx

theorem processConnect_field {α : Type} (f : Context → α)
    (hexpiry : ∀ ctx n, f { ctx with sessionExpiryInterval := n } = f ctx)
    (hmsgs : ∀ ctx md, f { ctx with msgsOut := md } = f ctx)
    (hsize : ∀ ctx n, f { ctx with maximumPacketSize := n } = f ctx) (ps : List Property)
    (ctx : Context) : f (ctx.processConnect ps) = f ctx := by
  fun_induction Context.processConnect ps ctx with
  | case1 => rfl
  | case2 p ps ctx value hid hvalue ih => exact ih.trans (hexpiry _ _)
  | case3 => rfl
  | case4 p ps ctx value hid hvalue hne ih => exact ih.trans (hmsgs _ _)
  | case5 => rfl
  | case6 p ps ctx value hid hvalue hne ih => exact ih.trans (hsize _ _)
  | case7 p ps ctx _ _ _ ih => exact ih

/-- The fields `handle__connect` sets. -/
def connect (p : ConnectPacket) (ctx : Context) : Context :=
  let ctx := { ctx with
    protocol := p.protocol, isBridge := p.isBridge, keepalive := p.keepalive
    sessionExpiryInterval := if p.cleanStart = false ∧ p.protocol ≠ .mqtt5 then 0xFFFFFFFF else 0 }
  let ctx := if p.protocol = .mqtt5 then processConnect p.properties ctx else ctx
  { ctx with
    id := some p.clientId, cleanStart := p.cleanStart, will := p.will
    willDelayInterval := if p.will.isSome then p.willDelayInterval else ctx.willDelayInterval
    thresholdL := p.thresholdL.getD ctx.thresholdL, optIn := ctx.optIn || p.thresholdL.isSome }

/-- `handle_connect_error`: the will is gone and the session is to end. A client that was let
in before keeps its id. -/
def refused (ctx : Context) : Context :=
  { ctx with id := if ctx.state = .new then none else ctx.id, will := none, cleanStart := true
             sessionExpiryInterval := 0, willDelayInterval := 0 }

/-- `handle__disconnect` before `do_disconnect`: whether the will is still to be sent, and
the new session expiry interval, which only MQTT 5 has. A session that ends with the
connection cannot be prolonged. -/
def disconnecting (packet : Option (Bool × Option Nat)) (ctx : Context) : Context :=
  match packet with
  | none => ctx
  | some (withWill, expiry) =>
    let expiry := if ctx.protocol = .mqtt5 then expiry else none
    if ctx.sessionExpiryInterval = 0 ∧ expiry.any (· ≠ 0) then ctx
    else
      let ctx := { ctx with sessionExpiryInterval := expiry.getD ctx.sessionExpiryInterval }
      if withWill then ctx.setState .disconnectWithWill else ctx.willClear.setState .disconnecting

end Context

end AdaptiveMqtt.Db

namespace AdaptiveMqtt.Broker

open Lib Topic AdaptiveMqtt.Sub Db

/-! ## Expiry and delay -/

/-- `DL_INSERT_INORDER`, where `cmp` compares an element with the new one: before the first
that is not less. -/
def insertInorder (cmp : CtxId → Int) (c : CtxId) (l : List CtxId) : List CtxId :=
  Agenda.insertBefore (fun d => cmp d < 0) c l

def sessionExpiryCmp (t1 t2 : Int) : Int := if t1 = t2 then 0 else if t1 > t2 then 1 else -1

def sessionExpiryAdd (c : CtxId) (b : State) : State :=
  match b.contexts.get c with
  | none => b
  | some ctx =>
    let limit := b.db.config.persistentClientExpiration
    if limit = 0 ∧ ctx.sessionExpiryInterval = 0xFFFFFFFF then b
    else
      let interval := if limit = 0 then ctx.sessionExpiryInterval
        else if limit < ctx.sessionExpiryInterval then limit else ctx.sessionExpiryInterval
      let time := b.db.nowRealS + interval
      let b := b.modifyClient c fun ctx => { ctx with sessionExpiryTime := time }
      let cmp := fun d => (b.contexts.get d).elim 0 fun d => sessionExpiryCmp d.sessionExpiryTime time
      { b with expiryList := insertInorder cmp c b.expiryList }

def sessionExpiryRemove (c : CtxId) (b : State) : State :=
  { b with expiryList := b.expiryList.erase c }

/-- `will_delay__cmp`, on the intervals: their difference in `uint32_t`, as an `int`. -/
def willDelayCmp (i1 i2 : Nat) : Int := ((i1 : Int) - i2).bmod (2 ^ 32)

def willDelayAdd (c : CtxId) (b : State) : State :=
  match b.contexts.get c with
  | none => b
  | some ctx =>
    if c ∈ b.delayList then b
    else
      let time := b.db.nowRealS + ctx.willDelayInterval
      let b := b.modifyClient c fun ctx => { ctx with willDelayTime := time }
      let cmp := fun d => (b.contexts.get d).elim 0 fun d =>
        willDelayCmp d.willDelayInterval ctx.willDelayInterval
      { b with delayList := insertInorder cmp c b.delayList }

def willDelayRemove (c : CtxId) (b : State) : State := { b with delayList := b.delayList.erase c }

/-! ## Disconnecting -/

def contextSendWill (env : Env) (c : CtxId) (b : State) : State :=
  match b.contexts.get c with
  | none => b
  | some ctx =>
    let clear := State.modifyClient c (·.willClear)
    match ctx.will with
    | none => clear b
    | some will =>
      if ctx.state = .disconnecting then clear b
      else if ctx.willDelayInterval > 0 then willDelayAdd c b
      else if mosquittoAclCheck env ctx will.topic will.payload will.qos will.retain .write =
          Rc.success then
        clear (messagesEasyQueue env (some ctx)
          { sourceMid := 0, topic := will.topic, payload := will.payload, qos := will.qos
            retain := will.retain, properties := will.properties } will.expiryInterval b).2
      else clear b

/-- `context__remove_from_by_id`: whatever context has the id is removed. -/
def contextRemoveFromById (c : CtxId) (b : State) : State :=
  match b.contexts.get c with
  | none => b
  | some ctx =>
    match ctx.id with
    | none => b
    | some id =>
      if ctx.removedFromById then b
      else
        let b := b.modifyClient c fun ctx => { ctx with removedFromById := true }
        { b with contextsById := b.contextsById.del id }

def contextAddToDisused (c : CtxId) (b : State) : State :=
  match b.contexts.get c with
  | none => b
  | some ctx =>
    if ctx.state = .disused then b
    else
      let b := contextRemoveFromById c (b.modifyClient c (·.setState .disused))
      let b := b.modifyClient c fun ctx => { ctx with id := none }
      { b with llForFree := c :: b.llForFree }

def contextDisconnect (env : Env) (c : CtxId) (b : State) : State :=
  match b.contexts.get c with
  | none => b
  | some ctx =>
    if ctx.state = .disconnected then b
    else
      let b := contextSendWill env c (b.modifyClient c (·.socketClose))
      let b :=
        match b.contexts.get c with
        | none => b
        | some ctx =>
          if ctx.sessionExpiryInterval = 0 then
            if ctx.bridge = none ∧ ctx.willDelayInterval = 0 then contextAddToDisused c b else b
          else sessionExpiryAdd c b
      b.modifyClient c (·.setState .disconnected)

def contextCleanup (env : Env) (c : CtxId) (b : State) : State :=
  let b := b.modifyClient c fun ctx => { ctx with cleanStart := true }.socketClose
  let b := { b with subs := b.subs.edit c (subCleanSession c) }
  let b := (b.onClient c fun m => (Rc.success, messagesDelete true m)).2
  let b := contextRemoveFromById c (contextSendWill env c b)
  { b with contexts := b.contexts.del c }

def contextFreeDisused (env : Env) (b : State) : State :=
  b.llForFree.foldl (fun b c => contextCleanup env c b) { b with llForFree := [] }

def expiryLoop (env : Env) : List CtxId → State → State
  | [], b => b
  | c :: rest, b =>
    if (b.contexts.get c).any (·.sessionExpiryTime < b.db.nowRealS) then
      let b := sessionExpiryRemove c b
      let b := b.modifyClient c fun ctx =>
        { ctx with sessionExpiryInterval := 0, willDelayInterval := 0 }
      expiryLoop env rest (contextAddToDisused c (contextSendWill env c (willDelayRemove c b)))
    else b

def sessionExpiryCheck (env : Env) (b : State) : State :=
  if b.db.nowRealS ≤ b.lastExpiryCheck then b
  else expiryLoop env b.expiryList { b with lastExpiryCheck := b.db.nowRealS }

def delayLoop (env : Env) : List CtxId → State → State
  | [], b => b
  | c :: rest, b =>
    if (b.contexts.get c).any (·.willDelayTime < b.db.nowRealS) then
      let b := willDelayRemove c b
      let b := b.modifyClient c fun ctx => { ctx with willDelayInterval := 0 }
      let b := contextSendWill env c b
      delayLoop env rest
        (if (b.contexts.get c).any (·.sessionExpiryInterval = 0) then contextAddToDisused c b else b)
    else b

def willDelayCheck (env : Env) (b : State) : State :=
  if b.db.nowRealS ≤ b.lastDelayCheck then b
  else delayLoop env b.delayList { b with lastDelayCheck := b.db.nowRealS }

/-! ## Connecting -/

/-- The messages of `found` are handed over to `c`, and its subscriptions. -/
def handOverSession (found c : CtxId) (b : State) : State :=
  match b.contexts.get found, b.contexts.get c with
  | some foundCtx, some ctx =>
    if ctx.cleanStart = false ∧ foundCtx.sessionExpiryInterval > 0 then
      let r := handOver foundCtx ⟨b.db, ctx⟩
      let subs := b.subs.subs found
      { b with
        db := r.1.db
        contexts := (b.contexts.set found r.2).set c r.1.ctx
        subs := { tree := subHandOver found c subs b.subs.tree
                  subs := Function.update (Function.update b.subs.subs c subs) found [] } }
    else b
  | _, _ => b

def willDue (found ctx : Context) : Bool :=
  (found.protocol = .mqtt5 ∧ found.sessionExpiryInterval = 0) ∨
    (found.protocol ≠ .mqtt5 ∧ found.cleanStart = true) ∨ ctx.cleanStart = true

/-- What `connect__on_authorised` does with an old connection of the client. -/
def takeOver (env : Env) (found c : CtxId) (b : State) : State :=
  match b.contexts.get found, b.contexts.get c with
  | some foundCtx, some ctx =>
    let b := handOverSession found c b
    let b := if ctx.cleanStart then { b with subs := b.subs.edit found (subCleanSession found) }
      else b
    let b := if willDue foundCtx ctx then contextSendWill env found b else b
    let b := willDelayRemove found (sessionExpiryRemove found b)
    let b := b.modifyClient found fun ctx =>
      { ctx.willClear with cleanStart := true, sessionExpiryInterval := 0 }.setState .duplicate
    contextDisconnect env found b
  | _, _ => b

/-- `connection_check_acl` on one list: what is left of it. -/
def checkAclLoop (env : Env) (dir : Direction) (ctx : Context) :
    List ClientMsg → Machine → List ClientMsg × Machine
  | [], m => ([], m)
  | msg :: rest, m =>
    let access := if msg.direction = .mdOut then Access.read else .write
    if mosquittoAclCheck env ctx msg.store.topic msg.store.payload msg.store.qos msg.store.retain
        access ≠ Rc.success then
      checkAclLoop env dir ctx rest (dropRef dir msg m)
    else
      let r := checkAclLoop env dir ctx rest m
      (msg :: r.1, r.2)

def connectionCheckAcl (env : Env) (m : Machine) : Machine :=
  let check := fun (dir : Direction) (m : Machine) =>
    let r := checkAclLoop env dir m.ctx (m.ctx.msgs dir).inflight m
    let m := r.2.onMsgs dir fun md => { md with inflight := r.1 }
    let r := checkAclLoop env dir m.ctx (m.ctx.msgs dir).queued m
    r.2.onMsgs dir fun md => { md with queued := r.1 }
  check .mdOut (check .mdIn m)

/-- The end of `connect__on_authorised`: the keepalive, the CONNACK, and the messages. -/
def connectDone (env : Env) (connectAck : UInt8) (m : Machine) : Rc × Machine :=
  let max := m.db.config.maxKeepalive
  let refused : Bool := max ≠ 0 ∧ (m.ctx.keepalive > max ∨ m.ctx.keepalive = 0)
  let m := if refused then { m with ctx := { m.ctx with keepalive := max } } else m
  if refused ∧ m.ctx.protocol ≠ .mqtt5 then
    (Rc.inval, (sendCommand env.net (.connack connectAck 2) m).2)
  else
    let r := sendCommand env.net (.connack connectAck 0)
      { m with ctx := m.ctx.setState .active }
    if r.1 ≠ Rc.success then r
    else
      let r := messageWriteQueuedOut r.2
      if r.1 ≠ Rc.success then r else messageWriteInflightOutAll env.net r.2

/-- `connect__on_authorised`; `maxQos` is the listener's. -/
def connectOnAuthorised (env : Env) (c : CtxId) (maxQos : Qos) (b : State) : Rc × State :=
  match b.contexts.get c with
  | none => (Rc.inval, b)
  | some ctx =>
    let id := ctx.id.getD []
    let found := b.contextsById.get id
    let resumed : Bool := ctx.cleanStart = false ∧
      (found.bind b.contexts.get).any (·.sessionExpiryInterval > 0)
    let connectAck : UInt8 :=
      if resumed ∧ (ctx.protocol = .mqtt311 ∨ ctx.protocol = .mqtt5) then 1 else 0
    let b := found.elim b (takeOver env · c b)
    let b := (b.onClient c fun m => (Rc.success, connectionCheckAcl env
      { m with ctx := { m.ctx with isDropping := false } })).2
    let b := { b with contextsById := b.contextsById.set id c }
    let b := b.modifyClient c fun ctx => { ctx with maxQos }
    b.onClient c (connectDone env connectAck)

/-- `handle__connect`, for a client that is let in, or that was let in before. -/
def handleConnect (env : Env) (c : CtxId) (maxQos : Qos) (p : ConnectPacket) (b : State) :
    Rc × State :=
  if (b.contexts.get c).any (·.state = .new) then
    connectOnAuthorised env c maxQos (b.modifyClient c (·.connect p))
  else (Rc.protocol, b.modifyClient c (·.refused))

/-! ## Events -/

/-- The events of the main loop. `refuse` is a CONNECT that fails, and `disconnect` a
DISCONNECT packet, or none if the connection is lost. -/
inductive Event where
  | accept (sock : Nat) (mountPoint : Option Bytes)
  | connect (c : CtxId) (maxQos : Qos) (p : ConnectPacket)
  | refuse (c : CtxId)
  | publish (c : CtxId) (p : PublishPacket)
  | pubrel (c : CtxId) (p : AckPacket)
  | ack (c : CtxId) (type : AckType) (p : AckPacket)
  | pubrec (c : CtxId) (p : AckPacket)
  | subscribe (c : CtxId) (p : SubscribePacket)
  | unsubscribe (c : CtxId) (p : SubscribePacket)
  | disconnect (c : CtxId) (packet : Option (Bool × Option Nat))
  | write (c : CtxId)
  | tick (nowS nowRealS : Int)
  | expiryCheck
  | delayCheck
  | freeDisused
  | sysTree (topic payload : Bytes)

def State.dbOpen (config : Config) (clock : Nat → Reading) : State :=
  { db := MosquittoDb.dbOpen config clock, contexts := ∅, nextContext := 0, contextsById := ∅
    subs := SubWorld.init, retains := retainInit, expiryList := [], lastExpiryCheck := 0
    delayList := [], lastDelayCheck := 0, llForFree := [], passed := [] }

def packetWrite (env : Env) (m : Machine) : Rc × Machine := m.sent (env.net.write m.db m.ctx)

/-- The reason code `handle__packet` gives an MQTT 5 client for an error. -/
def disconnectReason (rc : Rc) : Option UInt8 :=
  if rc = Rc.protocol ∨ rc = Rc.duplicateProperty then some 0x82
  else if rc = Rc.malformedPacket then some 0x81
  else if rc = Rc.qosNotSupported then some 0x9B
  else if rc = Rc.retainNotSupported then some 0x9A
  else if rc = Rc.topicAliasInvalid then some 0x94
  else if rc = Rc.unknown ∨ rc = Rc.nomem then some 0x80
  else none

/-- `handle__packet` sends a DISCONNECT to an MQTT 5 client after an error. -/
def sendDisconnect (env : Env) (rc : Rc) (m : Machine) : Rc × Machine :=
  match disconnectReason rc with
  | some reasonCode =>
    if m.ctx.protocol = .mqtt5 then sendCommand env.net (.disconnect reasonCode) m
    else (Rc.success, m)
  | none => (Rc.success, m)

/-- The main loop disconnects a client after an error. -/
def afterError (env : Env) (c : CtxId) (r : Rc × State) : State :=
  if r.1 ≠ Rc.success then contextDisconnect env c r.2 else r.2

def handlePacket (env : Env) (c : CtxId) (r : Rc × State) : State :=
  afterError env c (r.1, (r.2.onClient c (sendDisconnect env r.1)).2)

/-- The socket of a client is open. -/
def State.connected (b : State) (c : CtxId) : Bool := (b.contexts.get c).any (·.sock.isSome)

/-- The client an event needs an open socket of. -/
def Event.source : Event → Option CtxId
  | .accept _ _ | .tick _ _ | .expiryCheck | .delayCheck | .freeDisused | .sysTree _ _ => none
  | .connect c _ _ | .refuse c | .publish c _ | .pubrel c _ | .ack c _ _ | .pubrec c _
  | .subscribe c _ | .unsubscribe c _ | .disconnect c _ | .write c => some c

def State.exec (env : Env) (b : State) : Event → State
  | .accept sock mountPoint =>
    { b with
      contexts := b.contexts.set b.nextContext
        { Context.init b.db.config (some sock) with mountPoint }
      nextContext := b.nextContext + 1 }
  | .connect c maxQos p => afterError env c (handleConnect env c maxQos p b)
  | .refuse c => contextDisconnect env c (b.modifyClient c (·.refused))
  | .publish c p => handlePacket env c (handlePublish env c p b)
  | .pubrel c p => handlePacket env c (handlePubrel env c p b)
  | .ack c type p => handlePacket env c (b.onClient c (handlePubackcomp env.net type p))
  | .pubrec c p => handlePacket env c (b.onClient c (handlePubrec env.net p))
  | .subscribe c p => handlePacket env c (handleSubscribe env c p b)
  | .unsubscribe c p => handlePacket env c (handleUnsubscribe env c p b)
  | .disconnect c packet => contextDisconnect env c (b.modifyClient c (·.disconnecting packet))
  | .write c => afterError env c (b.onClient c (packetWrite env))
  | .tick nowS nowRealS => { b with db := { b.db with nowS, nowRealS } }
  | .expiryCheck => sessionExpiryCheck env b
  | .delayCheck => willDelayCheck env b
  | .freeDisused => contextFreeDisused env b
  | .sysTree topic payload =>
    (messagesEasyQueue env none { sourceMid := 0, topic := ascii "$SYS/" ++ topic, payload
                                  properties := [], qos := .q2, retain := true } 60 b).2

end AdaptiveMqtt.Broker
