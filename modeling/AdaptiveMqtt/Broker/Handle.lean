import AdaptiveMqtt.Broker.Model
import AdaptiveMqtt.Db.Ack

/-!
# Packets of a client

`handle__publish`, `handle__pubrel`, `handle__subscribe` and `handle__unsubscribe`, with
the functions of `database.c` for incoming messages. As for acknowledgements, a packet is
what the reading functions get out of `in_packet`, each with the code it fails with.
-/

namespace AdaptiveMqtt.Broker

open Lib Topic AdaptiveMqtt.Sub Db

/-! ## Incoming messages -/

def messageStoreFind (md : MsgData) (mid : UInt16) : Option MsgStore :=
  ((md.inflight.find? (·.store.sourceMid = mid)).or
    (md.queued.find? (·.store.sourceMid = mid))).map (·.store)

def messageRemoveIncoming (mid : UInt16) (m : Machine) : Rc × Machine :=
  match m.ctx.msgsIn.inflight.find? (·.mid = mid) with
  | none => (Rc.notFound, m)
  | some tail =>
    if tail.store.qos ≠ .q2 then (Rc.protocol, m)
    else (Rc.success, m.messageRemove .mdIn tail)

/-- Write through a pointer to an incoming message, whichever list it is in. -/
def updateIncoming (addr : Nat) (f : ClientMsg → ClientMsg) (m : Machine) : Machine :=
  m.onMsgs .mdIn fun md =>
    { md with inflight := updateAt addr f md.inflight, queued := updateAt addr f md.queued }

def writeQueuedInLoop (net : Net) : List ClientMsg → Machine → Rc × Machine
  | [], m => (Rc.success, m)
  | tail :: rest, m =>
    if m.ctx.msgsOut.inflightMaximum ≠ 0 ∧ m.ctx.msgsIn.inflightQuota = 0 then (Rc.success, m)
    else if tail.qos = .q2 then
      let m := updateIncoming tail.addr (fun msg => { msg with state := .sendPubrec }) m
      let r := sendPubrec net tail.mid 0 (m.onMsgs .mdIn (·.dequeueFirst))
      if r.1 = Rc.success then
        writeQueuedInLoop net rest
          (updateIncoming tail.addr (fun msg => { msg with state := .waitForPubrel }) r.2)
      else r
    else writeQueuedInLoop net rest m

def messageWriteQueuedIn (net : Net) (m : Machine) : Rc × Machine :=
  if m.ctx.state ≠ .active then (Rc.success, m)
  else writeQueuedInLoop net m.ctx.msgsIn.queued m

def releaseQueuedLoop (net : Net) : List ClientMsg → Nat → Machine → Machine
  | [], _, m => m
  | tail :: rest, msgIndex, m =>
    if m.ctx.msgsIn.inflightMaximum ≠ 0 ∧ msgIndex ≥ m.ctx.msgsIn.inflightMaximum then m
    else
      let now := m.db.nowS
      let m := updateIncoming tail.addr (fun msg => { msg with timestamp := now }) m
      if tail.qos = .q2 then
        let m := (sendPubrec net tail.mid 0 m).2
        let m := updateIncoming tail.addr (fun msg => { msg with state := .waitForPubrel }) m
        releaseQueuedLoop net rest (msgIndex + 1) (m.onMsgs .mdIn (·.dequeueFirst))
      else releaseQueuedLoop net rest (msgIndex + 1) m

/-- The loop over the messages in flight of `db__message_release_incoming`: whether one
was released, or the code it returns at once. A topic is never `NULL`. -/
def releaseLoop (env : Env) (c : CtxId) (mid : UInt16) :
    List ClientMsg → Bool → State → Except Rc Bool × State
  | [], deleted, b => (.ok deleted, b)
  | tail :: rest, deleted, b =>
    if tail.mid ≠ mid then releaseLoop env c mid rest deleted b
    else if tail.store.qos ≠ .q2 then (.error Rc.protocol, b)
    else
      let r := subMessagesQueue env tail.store.sourceId tail.store.topic .q2 tail.retain tail.store b
      if r.1 = Rc.success ∨ r.1 = Rc.noSubscribers then
        releaseLoop env c mid rest true
          (r.2.onClient c fun m => (Rc.success, m.messageRemove .mdIn tail)).2
      else (.error 1, r.2)

def messageReleaseIncoming (env : Env) (c : CtxId) (mid : UInt16) (b : State) : Rc × State :=
  match b.contexts.get c with
  | none => (Rc.inval, b)
  | some ctx =>
    match releaseLoop env c mid ctx.msgsIn.inflight false b with
    | (.error rc, b) => (rc, b)
    | (.ok deleted, b) =>
      let r := b.onClient c fun m => (Rc.success,
        releaseQueuedLoop env.net m.ctx.msgsIn.queued ctx.msgsIn.inflight.length m)
      (if deleted = true then Rc.success else Rc.notFound, r.2)

/-! ## PUBLISH -/

/-- A PUBLISH packet as it is read. `mapped` is the topic after the alias table and the
topic mapping of a bridge. -/
structure PublishPacket where
  dup : Bool
  qos : Option Qos
  retain : Bool
  topic : Except Rc Bytes
  mid : Except Rc UInt16
  properties : Except Rc (List Property)
  mapped : Except Rc Bytes
  payload : Bytes

/-- The properties that are passed on: payload format indicator, content type, response
topic, correlation data and user properties. -/
def passedOn (p : Property) : Bool := p.identifier ∈ [1, 3, 8, 9, 38]

/-- The value of the message expiry interval, the last one if there are several. -/
def messageExpiryInterval (properties : List Property) : Nat :=
  properties.foldl (fun interval p =>
    match p.identifier, p.value with
    | 2, .int32 value => value.toNat
    | _, _ => interval) 0

def checkTopic (topic : Bytes) : Except Rc Bytes :=
  if topic = [] ∨ mosquittoPubTopicCheck topic ≠ Rc.success then .error Rc.malformedPacket
  else .ok topic

/-- `handle__publish` up to the mount point: the message and its expiry interval. -/
def readPublish (config : Config) (ctx : Context) (p : PublishPacket) :
    Except Rc (NewMsg × Nat) := do
  if p.dup ∧ p.qos = some .q0 then throw Rc.malformedPacket
  let some qos := p.qos | throw Rc.malformedPacket
  if qos.toNat > ctx.maxQos.toNat then throw Rc.qosNotSupported
  if p.retain ∧ config.retainAvailable = false then throw Rc.retainNotSupported
  let topic ← p.topic.mapError fun _ => Rc.malformedPacket
  if topic = [] ∧ ctx.protocol ≠ .mqtt5 then throw Rc.malformedPacket
  let mut mid : UInt16 := 0
  if qos ≠ .q0 then
    mid ← p.mid.mapError fun _ => Rc.malformedPacket
    if mid = 0 then throw Rc.protocol
  let mut properties := []
  if ctx.protocol = .mqtt5 then
    properties ← p.properties
  let topic ← p.mapped >>= checkTopic
  return ({ sourceMid := mid, topic := ctx.mountPoint.getD [] ++ topic, payload := p.payload
            properties := properties.filter passedOn, qos, retain := p.retain },
    messageExpiryInterval properties)

def processBadMessage (env : Env) (c : CtxId) (msg : NewMsg) (reasonCode : UInt8) (b : State) :
    Rc × State :=
  match msg.qos with
  | .q0 => (Rc.success, b)
  | .q1 => b.onClient c (sendPuback env.net msg.sourceMid reasonCode)
  | .q2 => b.onClient c (sendPubrec env.net msg.sourceMid reasonCode)

def controlProcess (env : Env) (c : CtxId) (msg : NewMsg) (b : State) : Rc × State :=
  match msg.qos with
  | .q0 => (Rc.success, b)
  | .q1 =>
    let r := b.onClient c (sendPuback env.net msg.sourceMid 0)
    (if r.1 ≠ Rc.success then 1 else Rc.success, r.2)
  | .q2 =>
    let r := b.onClient c (sendPubrec env.net msg.sourceMid 0)
    (if r.1 ≠ Rc.success then 1 else Rc.success, r.2)

/-- The end of `handle__publish` for a message of QoS 1. -/
def publishQos1 (env : Env) (c : CtxId) (ctx : Context) (stored : MsgStore) (mid : UInt16)
    (b : State) : Rc × State :=
  let b := b.modifyClient c fun ctx => { ctx with msgsIn := ctx.msgsIn.decrementQuota }
  let r2 := subMessagesQueue env (ctx.id.getD []) stored.topic .q1 stored.retain stored b
  if r2.1 = Rc.success ∨ ctx.protocol ≠ .mqtt5 then
    let r := r2.2.onClient c (sendPuback env.net mid 0)
    (if r.1 ≠ Rc.success then 1 else Rc.success, r.2)
  else if r2.1 = Rc.noSubscribers then
    let r := r2.2.onClient c (sendPuback env.net mid 0x10)
    (if r.1 ≠ Rc.success then 1 else Rc.success, r.2)
  else r2

/-- The end of `handle__publish` for a message of QoS 2. -/
def publishQos2 (env : Env) (c : CtxId) (stored : MsgStore) (dup : Bool) (b : State) : Rc × State :=
  let r := if dup = true then (Rc.success, b) else b.onClient c
    (messageInsert env.net stored.sourceMid .mdIn stored.qos stored.retain stored [] false)
  if r.1 = Rc.success then
    let r := r.2.onClient c (sendPubrec env.net stored.sourceMid 0)
    (if r.1 ≠ Rc.success then 1 else Rc.success, r.2)
  else (if r.1 = 1 then 1 else Rc.success, r.2)

/-- The `switch(stored->qos)` of `handle__publish` and what follows it. -/
def publishStored (env : Env) (c : CtxId) (ctx : Context) (stored : MsgStore) (mid : UInt16)
    (dup : Bool) (b : State) : Rc × State :=
  let r :=
    match stored.qos with
    | .q0 =>
      let r2 := subMessagesQueue env (ctx.id.getD []) stored.topic .q0 stored.retain stored b
      (if r2.1 > 0 then (1 : Rc) else Rc.success, r2.2)
    | .q1 => publishQos1 env c ctx stored mid b
    | .q2 => publishQos2 env c stored dup b
  (r.1, (r.2.onClient c (messageWriteQueuedIn env.net)).2)

/-- The message found under the mid of a PUBLISH is another one. -/
def reused (stored : MsgStore) (msg : NewMsg) : Bool :=
  stored.qos ≠ msg.qos ∨ stored.topic ≠ msg.topic ∨ stored.payload ≠ msg.payload

/-- The message a PUBLISH of QoS > 0 repeats; another one under its mid is removed. -/
def findStored (c : CtxId) (msg : NewMsg) (b : State) : Option MsgStore × State :=
  let stored := if msg.qos ≠ .q0 then
    (b.contexts.get c).bind fun ctx => messageStoreFind ctx.msgsIn msg.sourceMid else none
  if stored.any (reused · msg) && decide (msg.sourceMid ≠ 0) then
    (none, (b.onClient c (messageRemoveIncoming msg.sourceMid)).2)
  else (stored, b)

/-- `handle__publish` from the search for a repeated message on. -/
def acceptPublish (env : Env) (c : CtxId) (msg : NewMsg) (expiry : Nat) (b : State) : Rc × State :=
  let r := findStored c msg b
  let b := r.2
  match b.contexts.get c with
  | none => (Rc.inval, b)
  | some ctx =>
    match r.1 with
    | some stored => publishStored env c ctx stored msg.sourceMid true b
    | none =>
      if msg.qos = .q0 ∨ readyForFlight b.db.config ctx .mdIn msg.qos ∨
          readyForQueue b.db.config ctx msg.qos ctx.msgsIn then
        let s := messageStore (some ctx) msg expiry b.db
        publishStored env c ctx s.1 msg.sourceMid false { b with db := s.2 }
      else processBadMessage env c msg 0x97 b

def handlePublish (env : Env) (c : CtxId) (p : PublishPacket) (b : State) : Rc × State :=
  match b.contexts.get c with
  | none => (Rc.inval, b)
  | some ctx =>
    if ctx.state ≠ .active then (Rc.protocol, b)
    else
      match readPublish b.db.config ctx p with
      | .error rc => (rc, b)
      | .ok (msg, expiry) =>
        if msg.payload ≠ [] ∧ b.db.config.messageSizeLimit ≠ 0 ∧
            msg.payload.length > b.db.config.messageSizeLimit then
          processBadMessage env c msg 0x95 b
        else
          let rc := mosquittoAclCheck env ctx msg.topic msg.payload msg.qos msg.retain .write
          if rc = Rc.aclDenied then processBadMessage env c msg 0x87 b
          else if rc ≠ Rc.success then (rc, b)
          else if msg.topic.take 9 = ascii "$CONTROL/" then controlProcess env c msg b
          else acceptPublish env c msg expiry b

def readPubrel (protocol : Protocol) (p : AckPacket) : Except Rc UInt16 := do
  if protocol ≠ .mqtt31 ∧ p.command ≠ 0x62 then throw Rc.malformedPacket
  let mid ← p.mid
  if mid = 0 then throw Rc.protocol
  if protocol = .mqtt5 ∧ p.remainingLength > 2 then
    let reasonCode ← p.reasonCode
    if reasonCode ≠ 0 ∧ reasonCode ≠ 146 then throw Rc.protocol
    if p.remainingLength > 3 then
      let _ ← p.properties
  if p.trailing then throw Rc.malformedPacket
  return mid

def handlePubrel (env : Env) (c : CtxId) (p : AckPacket) (b : State) : Rc × State :=
  match b.contexts.get c with
  | none => (Rc.inval, b)
  | some ctx =>
    if ctx.state ≠ .active then (Rc.protocol, b)
    else
      match readPubrel ctx.protocol p with
      | .error rc => (rc, b)
      | .ok mid =>
        let r := messageReleaseIncoming env c mid b
        if r.1 ≠ Rc.notFound ∧ r.1 ≠ Rc.success then r
        else r.2.onClient c (sendPubcomp env.net mid)

/-! ## SUBSCRIBE and UNSUBSCRIBE -/

structure SubscribeFilter where
  sub : Except Rc Bytes
  options : Except Rc UInt8

structure SubscribePacket where
  command : UInt8
  mid : Except Rc UInt16
  properties : Except Rc (List Property)
  filters : List SubscribeFilter

/-- The fixed part of SUBSCRIBE and UNSUBSCRIBE. -/
def readSubscribe (command : UInt8) (protocol : Protocol) (p : SubscribePacket) :
    Except Rc (UInt16 × List Property) := do
  if p.command ≠ command then throw Rc.malformedPacket
  let mid ← p.mid.mapError fun _ => Rc.malformedPacket
  if mid = 0 then throw Rc.malformedPacket
  if protocol = .mqtt5 then
    let properties ← p.properties.mapError fun rc =>
      if rc = Rc.protocol then Rc.malformedPacket else rc
    return (mid, properties)
  else return (mid, [])

/-- The subscription identifier of a SUBSCRIBE: zero is not allowed. -/
def subscriptionIdentifier (properties : List Property) : Except Rc Nat :=
  match properties.find? (·.identifier = 11) with
  | some ⟨_, .varint identifier⟩ =>
    if identifier = 0 then .error Rc.malformedPacket else .ok identifier
  | _ => .ok 0

def readOptions (ctx : Context) (options : UInt8) : Except Rc (Qos × UInt8 × UInt8) := do
  let v3 : Bool := ctx.protocol = .mqtt31 ∨ ctx.protocol = .mqtt311
  let qos := if v3 then options else options &&& 0x03
  let options := if v3 then (if ctx.isBridge then 0x0C else options) else options &&& 0xFC
  let retainHandling := if v3 then 0 else options &&& 0x30
  if ¬ v3 ∧ (retainHandling = 0x30 ∨ options &&& 0xC0 ≠ 0) then throw Rc.malformedPacket
  if qos > 2 then throw Rc.malformedPacket
  let qos := if qos = 0 then Qos.q0 else if qos = 1 then .q1 else .q2
  return (Qos.min qos ctx.maxQos, options, retainHandling)

def State.subAdd (c : CtxId) (protocol : Protocol) (sub : Bytes) (qos : Qos) (identifier : Nat)
    (options : UInt8) (b : State) : Rc × State :=
  let r := Sub.subAdd b.ids c protocol sub qos identifier options ⟨b.subs.tree, b.subs.subs c⟩
  (r.1, { b with subs := b.subs.edit c fun _ => r.2 })

/-- One round of the loop of `handle__subscribe`: the byte for the SUBACK. -/
def subscribeOne (env : Env) (c : CtxId) (ctx : Context) (identifier : Nat) (f : SubscribeFilter)
    (b : State) : Except Rc (Option UInt8) × State :=
  match f.sub with
  | .error _ => (.error Rc.malformedPacket, b)
  -- a filter of length zero is `NULL` and passed over
  | .ok [] => (.ok none, b)
  | .ok sub =>
    if mosquittoSubTopicCheck sub ≠ Rc.success then (.error Rc.malformedPacket, b)
    else
      match f.options.mapError (fun _ => Rc.malformedPacket) >>= readOptions ctx with
      | .error rc => (.error rc, b)
      | .ok (qos, options, retainHandling) =>
        let sub := ctx.mountPoint.getD [] ++ sub
        let rc2 := mosquittoAclCheck env ctx sub [] qos false .subscribe
        if rc2 = Rc.aclDenied then
          (.ok (some (if ctx.protocol = .mqtt5 then 0x87
            else if ctx.protocol = .mqtt311 then 0x80 else UInt8.ofNat qos.toNat)), b)
        else if rc2 ≠ Rc.success then (.error rc2, b)
        else
          let r := b.subAdd c ctx.protocol sub qos identifier options
          if r.1 > 0 then (.error r.1, r.2)
          else
            let wanted : Bool :=
              if ctx.protocol = .mqtt311 ∨ ctx.protocol = .mqtt31 then
                r.1 = Rc.success ∨ r.1 = Rc.subExists
              else retainHandling = 0 ∨ (r.1 = Rc.success ∧ retainHandling = 0x10)
            let identifier := if ctx.protocol = .mqtt311 ∨ ctx.protocol = .mqtt31 then 0
              else identifier
            let b := if wanted then (retainQueue env c sub qos identifier r.2).2 else r.2
            (.ok (some (UInt8.ofNat qos.toNat)), b)

def subscribeLoop (env : Env) (c : CtxId) (ctx : Context) (identifier : Nat) :
    List SubscribeFilter → Bytes → State → Except Rc Bytes × State
  | [], payload, b => (.ok payload, b)
  | f :: filters, payload, b =>
    match subscribeOne env c ctx identifier f b with
    | (.error rc, b) => (.error rc, b)
    | (.ok code, b) => subscribeLoop env c ctx identifier filters (payload ++ code.toList) b

/-- The end of `handle__subscribe`: the SUBACK, and the retained messages. -/
def subscribeDone (env : Env) (mid : UInt16) (payload : Bytes) (m : Machine) : Rc × Machine :=
  let r := sendCommand env.net (.suback mid payload) m
  if r.2.ctx.out.currentOutPacket = none then
    let r := messageWriteQueuedOut r.2
    if r.1 ≠ Rc.success then r else messageWriteInflightOutLatest env.net r.2
  else (if r.1 ≠ Rc.success then 1 else Rc.success, r.2)

def handleSubscribe (env : Env) (c : CtxId) (p : SubscribePacket) (b : State) : Rc × State :=
  match b.contexts.get c with
  | none => (Rc.inval, b)
  | some ctx =>
    if ctx.state ≠ .active then (Rc.protocol, b)
    else
      match readSubscribe 0x82 ctx.protocol p with
      | .error rc => (rc, b)
      | .ok (mid, properties) =>
        match subscriptionIdentifier properties with
        | .error rc => (rc, b)
        | .ok identifier =>
          match subscribeLoop env c ctx identifier p.filters [] b with
          | (.error rc, b) => (rc, b)
          | (.ok payload, b) =>
            if ctx.protocol ≠ .mqtt31 ∧ payload = [] then (Rc.malformedPacket, b)
            else b.onClient c (subscribeDone env mid payload)

def State.subRemove (c : CtxId) (sub : Bytes) (reason : UInt8) (b : State) : Rc × UInt8 × State :=
  let r := Sub.subRemove c sub reason ⟨b.subs.tree, b.subs.subs c⟩
  (r.1, r.2.1, { b with subs := b.subs.edit c fun _ => r.2.2 })

/-- The loop of `handle__unsubscribe`. Unsubscribing from `latency` ends slow mode,
allowed or not; `reason` is what the last round left. -/
def unsubscribeLoop (env : Env) (c : CtxId) (ctx : Context) :
    List SubscribeFilter → UInt8 → Bytes → State → Except Rc Bytes × State
  | [], _, reasonCodes, b => (.ok reasonCodes, b)
  | f :: filters, reason, reasonCodes, b =>
    match f.sub with
    | .error _ => (.error Rc.malformedPacket, b)
    | .ok sub =>
      if sub = [] ∨ mosquittoSubTopicCheck sub ≠ Rc.success then (.error Rc.malformedPacket, b)
      else
        let rc := mosquittoAclCheck env ctx sub [] .q0 false .unsubscribe
        if rc ≠ Rc.success ∧ rc ≠ Rc.aclDenied then (.error rc, b)
        else
          let b := if sub = ascii "latency" then b.modifyClient c (·.setMode .normalMode) else b
          let r := if rc = Rc.success then b.subRemove c sub reason else (Rc.success, 0x87, b)
          if r.1 ≠ Rc.success then (.error r.1, r.2.2)
          else unsubscribeLoop env c ctx filters r.2.1 (reasonCodes ++ [r.2.1]) r.2.2

def handleUnsubscribe (env : Env) (c : CtxId) (p : SubscribePacket) (b : State) : Rc × State :=
  match b.contexts.get c with
  | none => (Rc.inval, b)
  | some ctx =>
    if ctx.state ≠ .active then (Rc.protocol, b)
    else
      match readSubscribe 0xA2 ctx.protocol p with
      | .error rc => (rc, b)
      | .ok (mid, _) =>
        if ctx.protocol ≠ .mqtt31 ∧ p.filters = [] then (Rc.malformedPacket, b)
        else
          match unsubscribeLoop env c ctx p.filters 0 [] b with
          | (.error rc, b) => (rc, b)
          | (.ok reasonCodes, b) =>
            b.onClient c (sendCommand env.net (.unsuback mid reasonCodes))

end AdaptiveMqtt.Broker
