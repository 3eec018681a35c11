import AdaptiveMqtt.Basic
import AdaptiveMqtt.Lib.Heap

/-!
# The message database of one client

`src/database.c`, with the quota helpers of `lib/util_mosq.c` and the broker part of
`send__publish`. A `struct mosquitto_client_msg` is a value with the address it was
allocated at; `DL_DELETE` and a write through a pointer act on the list element with
that address. The `struct mosquitto_msg_store` a message refers to never changes
after `db__message_store` but for `ref_count` and `dest_ids`, which live in
`MosquittoDb.msgStore`.

A `DL_FOREACH_SAFE` loop is a recursion over the list as it was when the loop
started: no loop body frees or appends an element behind the current one of the list
it walks. Every `gettimeofday` and `clock_gettime` takes the next reading of
`MosquittoDb.clock`. What the network does is a parameter, `Net`. Allocation succeeds.

`Context.optIn`, `Context.journal`, `Context.early` and `Context.replies` are written
and never read: the latency-threshold flag of CONNECT, what was placed and removed,
whether a message was dropped while a packet still pointed into its payload, and the
packets without payload that were sent.
-/

namespace AdaptiveMqtt.Db

open Lib

/-- The address of a `struct mosquitto_msg_store`. -/
abbrev StoreId := Nat

inductive MsgOrigin where
  | moClient | moBroker
  deriving DecidableEq, Repr

/-- The fields of `struct mosquitto_msg_store` that do not change. -/
structure MsgStore where
  addr : StoreId
  origin : MsgOrigin
  sourceId : Bytes
  sourceMid : UInt16
  topic : Bytes
  payload : Bytes
  properties : List Property
  messageExpiryTime : Int
  qos : Qos
  retain : Bool
  deriving DecidableEq, Repr

def MsgStore.payloadlen (s : MsgStore) : Nat := s.payload.length

structure StoreEntry where
  store : MsgStore
  refCount : Int
  destIds : List Bytes
  deriving DecidableEq, Repr

structure ClientMsg where
  addr : Nat
  store : MsgStore
  properties : List Property
  timestamp : Int
  mid : UInt16
  qos : Qos
  retain : Bool
  direction : Direction
  state : MsgState
  dup : Bool
  storageTime : Int
  deriving DecidableEq, Repr

structure MsgData where
  inflight : List ClientMsg
  queued : List ClientMsg
  storage : List ClientMsg
  msgBytes : Int
  msgBytes12 : Int
  msgCount : Int
  msgCount12 : Int
  inflightQuota : Nat
  inflightMaximum : Nat
  deriving DecidableEq, Repr

/-- `struct mosquitto__packet`, as far as sending needs it. -/
structure Packet where
  command : UInt8
  mid : UInt16
  payload : Bytes
  packetLength : Nat
  payloadLength : Nat
  payloadStore : Option StoreId
  pubOrNot : Bool
  pos : Nat
  toProcess : Nat
  deriving DecidableEq, Repr

/-- The outgoing packets of a client. `wire` is what its socket has taken, `intended`
what the queued packets were to put there when they were queued, and `attempts` the
number of calls of `net__write`. -/
structure Out where
  outPacket : List Packet
  currentOutPacket : Option Packet
  outPacketCount : Int
  wire : Bytes
  intended : Bytes
  attempts : Nat
  deriving DecidableEq, Repr

/-- `struct mosquitto__bridge`, as far as `database.c` reads it. -/
structure Bridge where
  startTypeLazy : Bool
  cleanStart : Bool
  cleanStartLocal : Bool
  threshold : Int
  lazyReconnect : Bool
  deriving DecidableEq, Repr

/-- What happened to a message: `received` is the placing of an incoming one. -/
inductive Event where
  | placed (msg : ClientMsg)
  | received (msg : ClientMsg)
  | acked (msg : ClientMsg) (mid : UInt16) (expectState : MsgState) (qos : Qos)
  | expired (msg : ClientMsg) (now : Int)
  | published (msg : ClientMsg) (rc : Rc)
  deriving DecidableEq, Repr

/-- The packets that carry no payload of a message. -/
inductive Command where
  | puback (mid : UInt16) (reasonCode : UInt8)
  | pubrec (mid : UInt16) (reasonCode : UInt8)
  | pubrel (mid : UInt16)
  | pubcomp (mid : UInt16)
  | connack (ack reasonCode : UInt8)
  | suback (mid : UInt16) (payload : Bytes)
  | unsuback (mid : UInt16) (reasonCodes : Bytes)
  | disconnect (reasonCode : UInt8)
  deriving DecidableEq, Repr

/-- `struct mosquitto_message_all` of a will; `will__read` refuses an empty topic. -/
structure Will where
  topic : Bytes
  topic_ne_nil : topic ≠ []
  payload : Bytes
  qos : Qos
  retain : Bool
  expiryInterval : Nat
  properties : List Property
  deriving DecidableEq, Repr

/-- `struct mosquitto`. -/
structure Context where
  id : Option Bytes
  sock : Option Nat
  state : ClientState
  protocol : Protocol
  maxQos : Qos
  maximumPacketSize : Nat
  retainAvailable : Bool
  mountPoint : Option Bytes
  isBridge : Bool
  bridge : Option Bridge
  keepalive : Nat
  cleanStart : Bool
  sessionExpiryInterval : Nat
  sessionExpiryTime : Int
  will : Option Will
  willDelayInterval : Nat
  willDelayTime : Int
  removedFromById : Bool
  optIn : Bool
  isDropping : Bool
  lastMid : UInt16
  mode : TransferMode
  slowModeTime : Int
  sendTime : Int × Int
  latencyT : Int × Int
  thresholdL : UInt32
  latPre : List Int
  countForLat : Int
  msgsIn : MsgData
  msgsOut : MsgData
  out : Out
  journal : List Event
  early : Bool
  replies : List Command
  deriving DecidableEq, Repr

/-- `struct mosquitto__config`, as far as `database.c` reads it. -/
structure Config where
  maxInflightBytes : Nat
  maxInflightMessages : Nat
  maxQueuedMessages : Int
  maxQueuedBytes : Nat
  queueQos0Messages : Bool
  allowDuplicateMessages : Bool
  upgradeOutgoingQos : Bool
  retainAvailable : Bool
  checkRetainSource : Bool
  messageSizeLimit : Nat
  maxKeepalive : Nat
  persistentClientExpiration : Nat
  thresholdS : Nat
  msgStoreTimeout : Int
  deriving DecidableEq, Repr

/-- A reading of `CLOCK_MONOTONIC` and of the wall clock. -/
structure Reading where
  sec : Int
  nsec : Int
  wall : Int
  deriving DecidableEq, Repr

structure MosquittoDb where
  config : Config
  nowS : Int
  nowRealS : Int
  msgStore : Heap StoreId StoreEntry
  lastDbId : StoreId
  nextMsg : Nat
  clock : Nat → Reading
  tick : Nat

/-- The database and the client at work. -/
structure Machine where
  db : MosquittoDb
  ctx : Context

structure Publish where
  mid : UInt16
  topic : Bytes
  store : MsgStore
  qos : Qos
  retain : Bool
  dup : Bool
  properties : List Property
  expiryInterval : Nat

/-- The network: the topic mapping of a bridge (`none` if no rule matches),
`send__real_publish`, the other packets, and `packet__write`. -/
structure Net where
  remap : MosquittoDb → Context → Bytes → Option (Except Rc Bytes)
  realPublish : MosquittoDb → Context → Publish → Rc × Out
  command : MosquittoDb → Context → Command → Rc × Out
  write : MosquittoDb → Context → Rc × Out

def Config.init : Config :=
  { maxInflightBytes := 0, maxInflightMessages := 20, maxQueuedMessages := 1000
    maxQueuedBytes := 0, queueQos0Messages := false, allowDuplicateMessages := false
    upgradeOutgoingQos := false, retainAvailable := true, checkRetainSource := false
    messageSizeLimit := 0, maxKeepalive := 65535, persistentClientExpiration := 0
    thresholdS := 100, msgStoreTimeout := 20 }

/-- No packets. -/
def Out.empty : Out := ⟨[], none, 0, [], [], 0⟩

/-- A packet that is not completely written points into the payload of this store. -/
def Out.unfinished (out : Out) (s : StoreId) : Bool :=
  out.currentOutPacket.any (·.payloadStore = some s) || out.outPacket.any (·.payloadStore = some s)

/-! ## Reference counts -/

namespace MosquittoDb

def dbOpen (config : Config) (clock : Nat → Reading) : MosquittoDb :=
  { config, nowS := 0, nowRealS := 0, msgStore := ∅, lastDbId := 0, nextMsg := 0, clock, tick := 0 }

def read (db : MosquittoDb) : Reading × MosquittoDb :=
  (db.clock db.tick, { db with tick := db.tick + 1 })

def msgStoreRefInc (s : StoreId) (db : MosquittoDb) : MosquittoDb :=
  { db with msgStore := db.msgStore.modify s fun e => { e with refCount := e.refCount + 1 } }

def msgStoreRefDec (s : StoreId) (db : MosquittoDb) : MosquittoDb :=
  match db.msgStore.get s with
  | none => db
  | some e =>
    if e.refCount - 1 = 0 then { db with msgStore := db.msgStore.del s }
    else { db with msgStore := db.msgStore.set s { e with refCount := e.refCount - 1 } }

def addDestId (s : StoreId) (id : Bytes) (db : MosquittoDb) : MosquittoDb :=
  { db with msgStore := db.msgStore.modify s fun e => { e with destIds := e.destIds ++ [id] } }

end MosquittoDb

/-! ## Message lists -/

namespace MsgData

def empty (inflightMaximum : Nat) : MsgData :=
  ⟨[], [], [], 0, 0, 0, 0, inflightMaximum, inflightMaximum⟩

def incrementQuota (md : MsgData) : MsgData :=
  if md.inflightQuota < md.inflightMaximum then { md with inflightQuota := md.inflightQuota + 1 }
  else md

def decrementQuota (md : MsgData) : MsgData :=
  if md.inflightQuota > 0 then { md with inflightQuota := md.inflightQuota - 1 } else md

/-- Add a message to the four totals; `qos` decides whether it is one of QoS > 0. -/
def count (md : MsgData) (msg : ClientMsg) (qos : Qos) : MsgData :=
  let md := { md with msgCount := md.msgCount + 1
                      msgBytes := md.msgBytes + msg.store.payloadlen }
  if qos ≠ .q0 then { md with msgCount12 := md.msgCount12 + 1
                              msgBytes12 := md.msgBytes12 + msg.store.payloadlen }
  else md

/-- The lists and totals after `db__message_remove`. -/
def remove (md : MsgData) (item : ClientMsg) : MsgData :=
  let md := { md with inflight := md.inflight.eraseP (·.addr = item.addr)
                      msgCount := md.msgCount - 1
                      msgBytes := md.msgBytes - item.store.payloadlen }
  if item.qos ≠ .q0 then { md with msgCount12 := md.msgCount12 - 1
                                   msgBytes12 := md.msgBytes12 - item.store.payloadlen }
  else md

def dequeueFirst (md : MsgData) : MsgData :=
  match md.queued with
  | [] => md
  | msg :: rest => { md with queued := rest, inflight := md.inflight ++ [msg] }.decrementQuota

def destorageFirst (md : MsgData) (queueOrInflight : Bool) : MsgData :=
  match md.storage with
  | [] => md
  | msg :: rest =>
    if queueOrInflight = false then { md with storage := rest, queued := md.queued ++ [msg] }
    else { md with storage := rest, inflight := md.inflight ++ [msg] }.decrementQuota

end MsgData

/-- Write through a pointer to a message. -/
def updateAt (addr : Nat) (f : ClientMsg → ClientMsg) (l : List ClientMsg) : List ClientMsg :=
  l.map fun msg => if msg.addr = addr then f msg else msg

/-- `msg->state = …` as the `switch(qos)` before a send has it. -/
def ClientMsg.toPublish (msg : ClientMsg) : ClientMsg := { msg with state := publishState msg.qos }

namespace Context

/-- `context__init`. The first of `lat_pre` is the zero of `calloc`. -/
def init (config : Config) (sock : Option Nat) : Context :=
  { id := none, sock, state := .new, protocol := .invalid, maxQos := .q2, maximumPacketSize := 0
    retainAvailable := true
    mountPoint := none, isBridge := false, bridge := none, keepalive := 60, cleanStart := true
    sessionExpiryInterval := 0, sessionExpiryTime := 0, will := none, willDelayInterval := 0
    willDelayTime := 0, removedFromById := false, optIn := false, isDropping := false
    lastMid := 0, mode := .normalMode, slowModeTime := 0, sendTime := (0, 0), latencyT := (0, 0)
    thresholdL := 0
    latPre := [0, 1000000, 1000000, 1000000, 1000000], countForLat := 0
    msgsIn := MsgData.empty config.maxInflightMessages
    msgsOut := MsgData.empty config.maxInflightMessages
    out := Out.empty, journal := [], early := false, replies := [] }

def msgs (ctx : Context) : Direction → MsgData
  | .mdIn => ctx.msgsIn
  | .mdOut => ctx.msgsOut

def setMsgs (ctx : Context) (dir : Direction) (md : MsgData) : Context :=
  match dir with
  | .mdIn => { ctx with msgsIn := md }
  | .mdOut => { ctx with msgsOut := md }

def setMode (ctx : Context) (mode : TransferMode) : Context :=
  if ctx.state ≠ .disused then { ctx with mode } else ctx

def log (ctx : Context) (e : Event) : Context := { ctx with journal := ctx.journal ++ [e] }

/-- Write down that the message of this store is dropped. A packet for a closed socket
will not be written any more. -/
def drop (ctx : Context) (s : StoreId) : Context :=
  { ctx with early := ctx.early || ctx.sock.isSome && ctx.out.unfinished s }

end Context

namespace Machine

/-- Change the lists of one direction. -/
def onMsgs (m : Machine) (dir : Direction) (f : MsgData → MsgData) : Machine :=
  { m with ctx := m.ctx.setMsgs dir (f (m.ctx.msgs dir)) }

def messageRemove (dir : Direction) (item : ClientMsg) (m : Machine) : Machine :=
  { db := m.db.msgStoreRefDec item.store.addr
    ctx := m.ctx.setMsgs dir ((m.ctx.msgs dir).remove item) }

end Machine

/-! ## Admission -/

def readyForFlight (config : Config) (ctx : Context) (dir : Direction) (qos : Qos) : Bool :=
  let msgs := ctx.msgs dir
  if msgs.inflightMaximum = 0 ∧ config.maxInflightBytes = 0 then true
  else if qos = .q0 then
    if config.maxQueuedMessages = 0 ∧ config.maxInflightBytes = 0 then true
    else
      let validBytes : Bool := msgs.msgBytes - config.maxInflightBytes < config.maxQueuedBytes
      let validCount : Bool :=
        match dir with
        | .mdOut => ctx.out.outPacketCount < config.maxQueuedMessages
        | .mdIn => msgs.msgCount - msgs.inflightMaximum < config.maxQueuedMessages
      if config.maxQueuedMessages = 0 then validBytes
      else if config.maxQueuedBytes = 0 then validCount
      else validBytes && validCount
  else
    let validBytes : Bool := msgs.msgBytes12 < config.maxInflightBytes
    let validCount : Bool := msgs.inflightQuota > 0
    if msgs.inflightMaximum = 0 then validBytes
    else if config.maxInflightBytes = 0 then validCount
    else validBytes && validCount

def readyForQueue (config : Config) (ctx : Context) (qos : Qos) (md : MsgData) : Bool :=
  if config.maxQueuedMessages = 0 ∧ config.maxQueuedBytes = 0 then true
  else if qos = .q0 ∧ config.queueQos0Messages = false then false
  else
    let adjustBytes : Int := if ctx.sock = none then 0 else config.maxInflightBytes
    let adjustCount : Int := if ctx.sock = none then 0 else md.inflightMaximum
    let validBytes : Bool := md.msgBytes12 - adjustBytes < config.maxQueuedBytes
    let validCount : Bool := md.msgCount12 - adjustCount < config.maxQueuedMessages
    if config.maxQueuedBytes = 0 then validCount
    else if config.maxQueuedMessages = 0 then validBytes
    else validBytes && validCount

/-! ## Sending -/

section Send

variable (net : Net)

/-- Take over what the network did to the packet queue. -/
def Machine.sent (m : Machine) (r : Rc × Out) : Rc × Machine :=
  (r.1, { m with ctx := { m.ctx with out := r.2 } })

def stampSendTime (topic : Bytes) (m : Machine) : Machine :=
  if topic = ascii "latency" then
    let r := m.db.read
    { db := r.2, ctx := { m.ctx with sendTime := (r.1.sec, r.1.nsec) } }
  else m

def sendMapped (p : Publish) (m : Machine) : Rc × Machine :=
  match (if m.ctx.bridge.isSome then net.remap m.db m.ctx p.topic else none) with
  | some (.error rc) => (rc, m)
  | some (.ok topic) => m.sent (net.realPublish m.db m.ctx { p with topic })
  | none =>
    let m := stampSendTime p.topic m
    m.sent (net.realPublish m.db m.ctx p)

/-- `send__publish`. A topic that is not longer than the mount point is swallowed. -/
def sendPublish (p : Publish) (m : Machine) : Rc × Machine :=
  if m.ctx.sock = none then (Rc.noConn, m)
  else
    let p := { p with retain := m.ctx.retainAvailable && p.retain }
    match m.ctx.mountPoint with
    | none => sendMapped net p m
    | some mountPoint =>
      if mountPoint.length < p.topic.length then
        sendMapped net { p with topic := p.topic.drop mountPoint.length } m
      else (Rc.success, m)

/-- `send__command_with_mid`, and the other packets without payload. -/
def sendCommand (c : Command) (m : Machine) : Rc × Machine :=
  let m := { m with ctx := { m.ctx with replies := m.ctx.replies ++ [c] } }
  m.sent (net.command m.db m.ctx c)

def sendPubrel (mid : UInt16) (m : Machine) : Rc × Machine := sendCommand net (.pubrel mid) m

def sendPubrec (mid : UInt16) (reasonCode : UInt8) (m : Machine) : Rc × Machine :=
  let m := if reasonCode ≥ 0x80 ∧ m.ctx.protocol = .mqtt5 then m.onMsgs .mdIn (·.incrementQuota)
    else m
  sendCommand net (.pubrec mid reasonCode) m

def sendPuback (mid : UInt16) (reasonCode : UInt8) (m : Machine) : Rc × Machine :=
  sendCommand net (.puback mid reasonCode) (m.onMsgs .mdIn (·.incrementQuota))

def sendPubcomp (mid : UInt16) (m : Machine) : Rc × Machine :=
  sendCommand net (.pubcomp mid) (m.onMsgs .mdIn (·.incrementQuota))

/-! ## Writing messages out -/

/-- Remove an outgoing message and write down why. -/
def removeOut (msg : ClientMsg) (e : Event) (m : Machine) : Machine :=
  let m := m.messageRemove .mdOut msg
  { m with ctx := (m.ctx.drop msg.store.addr).log e }

/-- Write through a pointer to a message of `msgs_out.inflight`. -/
def Machine.updateInflight (addr : Nat) (f : ClientMsg → ClientMsg) (m : Machine) : Machine :=
  m.onMsgs .mdOut fun md => { md with inflight := updateAt addr f md.inflight }

/-- The `send__publish` cases of `db__message_write_inflight_out_single`: what is
left of the message after a send with return code `rc`. -/
def afterPublish (msg : ClientMsg) (next : Option MsgState) (r : Rc × Machine) : Rc × Machine :=
  if r.1 = Rc.success then
    match next with
    | none => (Rc.success, removeOut msg (.published msg r.1) r.2)
    | some state =>
      (Rc.success, r.2.updateInflight msg.addr fun msg =>
        { msg with timestamp := r.2.db.nowS, dup := true, state })
  else if r.1 = Rc.oversizePacket then (Rc.success, removeOut msg (.published msg r.1) r.2)
  else r

def messageWriteInflightOutSingle (msg : ClientMsg) (m : Machine) : Rc × Machine :=
  let expiry := msg.store.messageExpiryTime
  if expiry ≠ 0 ∧ m.db.nowRealS > expiry then
    let m := if msg.direction = .mdOut ∧ msg.qos ≠ .q0 then m.onMsgs .mdOut (·.incrementQuota)
      else m
    (Rc.success, removeOut msg (.expired msg m.db.nowRealS) m)
  else
    let p : Publish :=
      { mid := msg.mid, topic := msg.store.topic, store := msg.store, qos := msg.qos
        retain := msg.retain, dup := msg.dup, properties := msg.properties
        expiryInterval := if expiry = 0 then 0 else ((expiry - m.db.nowRealS) % 2 ^ 32).toNat }
    match msg.state with
    | .publishQos0 => afterPublish msg none (sendPublish net p m)
    | .publishQos1 => afterPublish msg (some .waitForPuback) (sendPublish net p m)
    | .publishQos2 => afterPublish msg (some .waitForPubrec) (sendPublish net p m)
    | .resendPubrel =>
      let r := sendPubrel net msg.mid m
      if r.1 = Rc.success then
        (Rc.success, r.2.updateInflight msg.addr fun msg => { msg with state := .waitForPubcomp })
      else r
    | _ => (Rc.success, m)

/-- Write messages out one by one until one fails. -/
def writeInflightLoop : List ClientMsg → Machine → Rc × Machine
  | [], m => (Rc.success, m)
  | msg :: rest, m =>
    let r := messageWriteInflightOutSingle net msg m
    if r.1 ≠ Rc.success then r else writeInflightLoop rest r.2

def messageWriteInflightOutAll (m : Machine) : Rc × Machine :=
  if m.ctx.state ≠ .active ∨ m.ctx.sock = none then (Rc.success, m)
  else writeInflightLoop net m.ctx.msgsOut.inflight m

def MsgState.isPublish : MsgState → Bool
  | .publishQos0 | .publishQos1 | .publishQos2 => true
  | _ => false

/-- Where `db__message_write_inflight_out_latest` starts: it steps back from the end
of the list over messages waiting for publish, to the head at most; the head itself
is included whatever its state. -/
def latestFrom : List ClientMsg → List ClientMsg
  | [] => []
  | head :: tail =>
    if tail.all (MsgState.isPublish ·.state) then head :: tail
    else (tail.reverse.takeWhile (MsgState.isPublish ·.state)).reverse

def messageWriteInflightOutLatest (m : Machine) : Rc × Machine :=
  if m.ctx.state ≠ .active ∨ m.ctx.sock = none ∨ m.ctx.msgsOut.inflight = [] then (Rc.success, m)
  else writeInflightLoop net (latestFrom m.ctx.msgsOut.inflight) m

end Send

def writeQueuedLoop : List ClientMsg → MsgData → MsgData
  | [], md => md
  | msg :: rest, md =>
    if md.inflightMaximum ≠ 0 ∧ md.inflightQuota = 0 then md
    else
      let md := { md with queued := updateAt msg.addr ClientMsg.toPublish md.queued }
      writeQueuedLoop rest md.dequeueFirst

def messageWriteQueuedOut (m : Machine) : Rc × Machine :=
  if m.ctx.state ≠ .active then (Rc.success, m)
  else (Rc.success, m.onMsgs .mdOut fun md => writeQueuedLoop md.queued md)

/-- The loop of `db__message_write_storage_out`: the state is set on the element the
loop is at, and the head of the list is what moves. -/
def writeStorageLoop (now timeout : Int) (mode : TransferMode) : List ClientMsg → MsgData → MsgData
  | [], md => md
  | msg :: rest, md =>
    let md :=
      if now - msg.storageTime > timeout ∨ mode = .normalMode then
        if md.inflightMaximum ≠ 0 ∧ md.inflightQuota = 0 then md.destorageFirst false
        else
          { md with storage := updateAt msg.addr ClientMsg.toPublish md.storage }.destorageFirst true
      else md
    writeStorageLoop now timeout mode rest md

def messageWriteStorageOut (m : Machine) : Rc × Machine :=
  if m.ctx.state ≠ .active then (Rc.success, m)
  else
    let r := m.db.read
    let m := { m with db := r.2 }
    (Rc.success, m.onMsgs .mdOut fun md =>
      writeStorageLoop r.1.sec m.db.config.msgStoreTimeout m.ctx.mode md.storage md)

/-! ## Acknowledging -/

/-- The loop over `msgs_out.queued` of `db__message_delete_outgoing`. -/
def deleteOutgoingLoop (now : Int) : List ClientMsg → Nat → MsgData → MsgData
  | [], _, md => md
  | msg :: rest, msgIndex, md =>
    if md.inflightMaximum ≠ 0 ∧ msgIndex ≥ md.inflightMaximum then md
    else
      let f := fun msg : ClientMsg => { msg.toPublish with timestamp := now }
      let md := { md with queued := updateAt msg.addr f md.queued }
      deleteOutgoingLoop now rest (msgIndex + 1) md.dequeueFirst

/-- `db__message_delete_outgoing`. `msg_index` counts the messages before the one
acknowledged, or all of them if there is none. -/
def messageDeleteOutgoing (net : Net) (mid : UInt16) (expectState : MsgState) (qos : Qos)
    (m : Machine) : Rc × Machine :=
  let msgIndex := m.ctx.msgsOut.inflight.findIdx (·.mid = mid)
  let go := fun m : Machine =>
    messageWriteInflightOutLatest net
      (m.onMsgs .mdOut fun md => deleteOutgoingLoop m.db.nowS md.queued msgIndex md)
  match m.ctx.msgsOut.inflight.find? (·.mid = mid) with
  | none => go m
  | some tail =>
    if tail.qos ≠ qos then (Rc.protocol, m)
    else if qos = .q2 ∧ tail.state ≠ expectState then (Rc.protocol, m)
    else go (removeOut tail (.acked tail mid expectState qos) m)

def messageUpdateOutgoing (mid : UInt16) (state : MsgState) (qos : Qos) (m : Machine) :
    Rc × Machine :=
  match m.ctx.msgsOut.inflight.find? (·.mid = mid) with
  | none => (Rc.notFound, m)
  | some tail =>
    if tail.qos ≠ qos then (Rc.protocol, m)
    else (Rc.success, m.updateInflight tail.addr fun msg =>
      { msg with state, timestamp := m.db.nowS })

/-! ## Inserting -/

def leaveSlowMode (m : Machine) : Machine :=
  let r := m.db.read
  let m := { m with db := r.2 }
  if m.ctx.slowModeTime + 30 < r.1.wall then { m with ctx := m.ctx.setMode .normalMode } else m

/-- Where `db__message_insert` puts a message: the state it gets and the provisional
return code, or the code it returns at once. The machine changes in the mode, the
clock and `is_dropping`. -/
def insertState (dir : Direction) (qos : Qos) (stored : MsgStore) (m : Machine) :
    Except Rc (MsgState × Rc) × Machine :=
  let msgData := m.ctx.msgs dir
  let dropped := fun m : Machine => { m with ctx := { m.ctx with isDropping := true } }
  if m.ctx.sock ≠ none then
    let m := leaveSlowMode m
    if stored.payloadlen ≥ m.db.config.thresholdS ∧ m.ctx.mode = .slowMode ∧
        stored.topic ≠ ascii "latency" then
      (.ok (.storage, 0), m)
    else if readyForFlight m.db.config m.ctx dir qos then
      match dir with
      | .mdOut => (.ok (publishState qos, 0), m)
      | .mdIn => if qos = .q2 then (.ok (.waitForPubrel, 0), m) else (.error 1, m)
    else if qos ≠ .q0 ∧ readyForQueue m.db.config m.ctx qos msgData then (.ok (.queued, 2), m)
    else (.error 2, dropped m)
  else if readyForQueue m.db.config m.ctx qos msgData then (.ok (.queued, 0), m)
  else (.error 2, dropped m)

/-- Append a message to the list of its state. -/
def MsgData.place (md : MsgData) (msg : ClientMsg) : MsgData :=
  match msg.state with
  | .queued => { md with queued := md.queued ++ [msg] }
  | .storage => { md with storage := md.storage ++ [msg] }
  | _ => { md with inflight := md.inflight ++ [msg] }

/-- Allocate a message and append it to its list. A stored one is stamped with the
time. -/
def insertMsg (mid : UInt16) (dir : Direction) (qos : Qos) (retain : Bool) (stored : MsgStore)
    (properties : List Property) (state : MsgState) (m : Machine) : Machine :=
  let db := m.db.msgStoreRefInc stored.addr
  let r := if state = .storage then db.read else (⟨0, 0, 0⟩, db)
  let msg : ClientMsg :=
    { addr := r.2.nextMsg, store := stored, properties, timestamp := m.db.nowS, mid
      qos := Qos.min qos m.ctx.maxQos, retain, direction := dir, state, dup := false
      storageTime := r.1.sec }
  let ctx := m.ctx.setMsgs dir (((m.ctx.msgs dir).place msg).count msg qos)
  { db := { r.2 with nextMsg := r.2.nextMsg + 1 }
    ctx := ctx.log (if dir = .mdOut then .placed msg else .received msg) }

/-- `db__message_insert` refuses the message before it looks at the lists: the client
has it already, or is offline and keeps none. -/
def insertRefused (dir : Direction) (qos : Qos) (retain : Bool) (stored : MsgStore) (id : Bytes)
    (m : Machine) : Option Rc :=
  let destIds := ((m.db.msgStore.get stored.addr).map (·.destIds)).getD []
  if m.ctx.protocol ≠ .mqtt5 ∧ m.db.config.allowDuplicateMessages = false ∧ dir = .mdOut ∧
      retain = false ∧ id ∈ destIds then some Rc.success
  else if m.ctx.sock = none ∧ qos = .q0 ∧ m.db.config.queueQos0Messages = false ∧
      (m.ctx.bridge.map (·.startTypeLazy)).getD false = false then some 2
  else if m.ctx.sock = none ∧ (m.ctx.bridge.map (·.cleanStartLocal)).getD false = true then some 2
  else none

/-- Remember in `dest_ids` who got the message. -/
def noteDestId (dir : Direction) (retain : Bool) (stored : MsgStore) (id : Bytes) (m : Machine) :
    Machine :=
  if m.db.config.allowDuplicateMessages = false ∧ dir = .mdOut ∧ retain = false then
    { m with db := m.db.addDestId stored.addr id }
  else m

def wakeLazyBridge (m : Machine) : Machine :=
  match m.ctx.bridge with
  | some b =>
    if b.startTypeLazy ∧ m.ctx.sock = none ∧ m.ctx.msgsOut.msgCount ≥ b.threshold then
      { m with ctx := { m.ctx with bridge := some { b with lazyReconnect := true } } }
    else m
  | none => m

/-- What `db__message_insert` does after placing a message. -/
def insertAfter (dir : Direction) (qos : Qos) (retain : Bool) (stored : MsgStore) (id : Bytes)
    (m : Machine) : Machine :=
  let m := wakeLazyBridge (noteDestId dir retain stored id m)
  if dir = .mdOut ∧ Qos.min qos m.ctx.maxQos ≠ .q0 then m.onMsgs .mdOut (·.decrementQuota) else m

def messageInsert (net : Net) (mid : UInt16) (dir : Direction) (qos : Qos) (retain : Bool)
    (stored : MsgStore) (properties : List Property) (update : Bool) (m : Machine) : Rc × Machine :=
  match m.ctx.id with
  | none => (Rc.success, m)
  | some id =>
    match insertRefused dir qos retain stored id m with
    | some rc => (rc, m)
    | none =>
      match insertState dir qos stored m with
      | (.error rc, m) => (rc, m)
      | (.ok (state, rc), m) =>
        let m := insertMsg mid dir qos retain stored properties state m
        let m := insertAfter dir qos retain stored id m
        if dir = .mdOut ∧ update = true then
          let r := messageWriteInflightOutLatest net m
          if r.1 ≠ Rc.success then r
          else
            let r := messageWriteQueuedOut r.2
            if r.1 ≠ Rc.success then r else messageWriteStorageOut r.2
        else (rc, m)

/-! `db__message_insert` in two parts: the message is placed in a list, and what is sent then. -/

/-- Up to where the message is in its list. -/
def insertPlace (mid : UInt16) (dir : Direction) (qos : Qos) (retain : Bool) (stored : MsgStore)
    (properties : List Property) (m : Machine) : Except Rc Rc × Machine :=
  match m.ctx.id with
  | none => (.error Rc.success, m)
  | some id =>
    match insertRefused dir qos retain stored id m with
    | some rc => (.error rc, m)
    | none =>
      match insertState dir qos stored m with
      | (.error rc, m) => (.error rc, m)
      | (.ok (state, rc), m) => (.ok rc, insertMsg mid dir qos retain stored properties state m)

def insertSend (net : Net) (dir : Direction) (qos : Qos) (retain : Bool) (stored : MsgStore)
    (update : Bool) (rc : Rc) (m : Machine) : Rc × Machine :=
  let m := insertAfter dir qos retain stored (m.ctx.id.getD []) m
  if dir = .mdOut ∧ update = true then
    let r := messageWriteInflightOutLatest net m
    if r.1 ≠ Rc.success then r
    else
      let r := messageWriteQueuedOut r.2
      if r.1 ≠ Rc.success then r else messageWriteStorageOut r.2
  else (rc, m)

end AdaptiveMqtt.Db
