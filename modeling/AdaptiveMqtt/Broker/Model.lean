import AdaptiveMqtt.Db.Session
import AdaptiveMqtt.Sub.Model

/-!
# The broker

The state of the broker and the way of a message through it: `db__message_store`,
`sub__messages_queue` with `subs__send`, the retain tree of `src/retain.c`, and
`db__messages_easy_queue`.

A `struct mosquitto` is a cell of `State.contexts`; a function of `database.c` runs on
the cell of its client and the message database (`State.onClient`). A pointer to a
context that has been freed is an address without a cell. The node of the retain tree is
addressed by its path, as in the subscription tree, and is never freed. Access control is
a parameter up to the `$` topics, and no plugin handles messages.

`State.passed` is written and never read: what was given to `sub__messages_queue`.
-/

namespace AdaptiveMqtt.Broker

open Lib Topic AdaptiveMqtt.Sub Db

/-- `struct mosquitto__retainhier` without its links. -/
structure RetainHier where
  retained : Option MsgStore
  children : List Bytes
  deriving DecidableEq, Repr

/-- `db`, with the clients it has. -/
structure State where
  db : MosquittoDb
  contexts : Heap CtxId Context
  nextContext : CtxId
  contextsById : Heap Bytes CtxId
  subs : SubWorld
  retains : Heap Path RetainHier
  expiryList : List CtxId
  lastExpiryCheck : Int
  delayList : List CtxId
  lastDelayCheck : Int
  llForFree : List CtxId
  passed : List MsgStore

inductive Access where
  | read | write | subscribe | unsubscribe
  deriving DecidableEq, Repr

/-- What is outside: the network, the access control of plugins and ACL files, and the
check of the source of a retained message. -/
structure Env where
  net : Net
  acl : Context → Bytes → Bytes → Qos → Bool → Access → Rc
  aclSource : MsgStore → Rc

/-- Access for all. -/
def Env.granting : Env := ⟨Net.taking, fun _ _ _ _ _ _ => Rc.success, fun _ => Rc.success⟩

namespace State

/-- `context->id` of every client. -/
def ids (b : State) (c : CtxId) : Option Bytes := (b.contexts.get c).bind (·.id)

def modifyClient (c : CtxId) (f : Context → Context) (b : State) : State :=
  { b with contexts := b.contexts.modify c f }

/-- Run a function of the message database for a client. -/
def onClient (c : CtxId) (f : Machine → Rc × Machine) (b : State) : Rc × State :=
  match b.contexts.get c with
  | none => (Rc.success, b)
  | some ctx =>
    let r := f ⟨b.db, ctx⟩
    (r.1, { b with db := r.2.db, contexts := b.contexts.set c r.2.ctx })

end State

/-! ## Access -/

def aclCheckDollar (topic : Bytes) (access : Access) : Rc :=
  if topic.head? ≠ some dollar then Rc.success
  else if topic.take 4 = ascii "$SYS" then
    if access = .write then
      if mosquittoTopicMatchesSub (ascii "$SYS/broker/connection/+/state") topic =
          (Rc.success, true) then Rc.success
      else Rc.aclDenied
    else Rc.success
  else if topic.take 6 = ascii "$share" then
    if access = .subscribe ∨ access = .unsubscribe then Rc.success else Rc.aclDenied
  else Rc.success

def mosquittoAclCheck (env : Env) (ctx : Context) (topic payload : Bytes) (qos : Qos)
    (retain : Bool) (access : Access) : Rc :=
  if ctx.id = none then Rc.aclDenied
  else if ctx.bridge.isSome then Rc.success
  else
    let rc := aclCheckDollar topic access
    if rc ≠ Rc.success then rc else env.acl ctx topic payload qos retain access

def midGenerate (m : Machine) : UInt16 × Machine :=
  let mid := m.ctx.lastMid + 1
  let mid := if mid = 0 then 1 else mid
  (mid, { m with ctx := { m.ctx with lastMid := mid } })

/-- A new mid for a message of QoS > 0. -/
def midFor (qos : Qos) (m : Machine) : UInt16 × Machine :=
  if qos ≠ .q0 then midGenerate m else (0, m)

/-- The subscription identifier of a message that is sent for a subscription. -/
def identifierProperty (identifier : Nat) : List Property :=
  if identifier ≠ 0 then [⟨11, .varint identifier⟩] else []

/-! ## Retained messages -/

def retainAddHierEntry (retains : Heap Path RetainHier) (p : Path) : Heap Path RetainHier :=
  match retains.get p with
  | some _ => retains
  | none =>
    let retains := retains.modify p.dropLast fun h =>
      { h with children := h.children ++ p.getLast?.toList }
    retains.set p ⟨none, []⟩

def retainInit : Heap Path RetainHier :=
  retainAddHierEntry (retainAddHierEntry ∅ [[]]) [ascii "$SYS"]

/-- The loop of `retain__store` that finds or makes the node of a topic. -/
def retainBranches : List Bytes → Path → Heap Path RetainHier → Heap Path RetainHier
  | [], _, retains => retains
  | topic :: topics, p, retains =>
    retainBranches topics (p ++ [topic]) (retainAddHierEntry retains (p ++ [topic]))

def setRetained (node : Path) (stored : Option MsgStore) (b : State) : State :=
  match b.retains.get node with
  | none => b
  | some h =>
    let db := h.retained.elim b.db fun old => b.db.msgStoreRefDec old.addr
    { b with db := stored.elim db fun s => db.msgStoreRefInc s.addr
             retains := b.retains.set node { h with retained := stored } }

def retainStore (stored : MsgStore) (splitTopics : List Bytes) (b : State) : State :=
  let root := [splitTopics.headD []]
  let b := { b with retains := retainBranches splitTopics root (retainAddHierEntry b.retains root) }
  setRetained (root ++ splitTopics) (if stored.payloadlen ≠ 0 then some stored else none) b

def retainProcess (env : Env) (c : CtxId) (subQos : Qos) (identifier : Nat) (branch : Path)
    (b : State) : Rc × State :=
  match (b.retains.get branch).bind (·.retained), b.contexts.get c with
  | some retained, some ctx =>
    if retained.messageExpiryTime > 0 ∧ b.db.nowRealS ≥ retained.messageExpiryTime then
      (Rc.success, setRetained branch none b)
    else
      let rc := mosquittoAclCheck env ctx retained.topic retained.payload retained.qos
        retained.retain .read
      let rc' := if b.db.config.checkRetainSource ∧ retained.origin ≠ .moBroker then
        env.aclSource retained else Rc.success
      if rc = Rc.aclDenied then (Rc.success, b)
      else if rc ≠ Rc.success then (rc, b)
      else if rc' = Rc.aclDenied then (Rc.success, b)
      else if rc' ≠ Rc.success then (rc', b)
      else
        let qos := if b.db.config.upgradeOutgoingQos then subQos else Qos.min retained.qos subQos
        b.onClient c fun m =>
          let r := midFor qos m
          messageInsert env.net r.1 .mdOut qos true retained (identifierProperty identifier) false
            r.2
  | _, _ => (Rc.success, b)

/-- The nodes `retain__search` visits for a last `#`. No node is at a depth of `fuel`. -/
def retainHash (children : Path → List Bytes) : Nat → Path → List Path
  | 0, _ => []
  | fuel + 1, p =>
    (children p).flatMap fun topic => (p ++ [topic]) :: retainHash children fuel (p ++ [topic])

/-- The nodes whose retained message `retain__search` processes, in its order, and
whether it returns -1. The shape of the tree does not change meanwhile. -/
def retainSearch (children : Path → List Bytes) (fuel : Nat) :
    List Bytes → Nat → Path → Bool × List Path
  | [], _, _ => (false, [])
  | topic :: topics, level, p =>
    if topic = [hash] ∧ topics = [] then (!(children p).isEmpty, retainHash children fuel p)
    else
      let visit := fun branch : Path =>
        match topics with
        | [] => [branch]
        | next :: _ =>
          let r := retainSearch children fuel topics (level + 1) branch
          r.2 ++ if r.1 = true ∨ (next = [hash] ∧ level > 0) then [branch] else []
      if topic = [plus] then (false, (children p).flatMap fun t => visit (p ++ [t]))
      else (false, if topic ∈ children p then visit (p ++ [topic]) else [])

def retainQueue (env : Env) (c : CtxId) (sub : Bytes) (subQos : Qos) (identifier : Nat)
    (b : State) : Rc × State :=
  match subTopicTokenise sub with
  | .error rc => (rc, b)
  | .ok (splitTopics, _) =>
    let root := [splitTopics.headD []]
    let children := fun p => ((b.retains.get p).map (·.children)).getD []
    let nodes := if (b.retains.get root).isSome then
      (retainSearch children b.retains.keys.length splitTopics 0 root).2 else []
    (Rc.success, nodes.foldl (fun b branch => (retainProcess env c subQos identifier branch b).2) b)

/-! ## Passing a message on -/

def subsSend (env : Env) (topic : Bytes) (qos : Qos) (retain : Bool) (stored : MsgStore)
    (leaf : SubLeaf) (b : State) : Rc × State :=
  match b.contexts.get leaf.context with
  | none => (Rc.success, b)
  | some ctx =>
    let rc2 := mosquittoAclCheck env ctx topic stored.payload stored.qos stored.retain .read
    if rc2 = Rc.aclDenied then (Rc.success, b)
    else if rc2 = Rc.success then
      let msgQos := if b.db.config.upgradeOutgoingQos then leaf.qos else Qos.min qos leaf.qos
      let r := b.onClient leaf.context fun m =>
        let g := midFor msgQos m
        messageInsert env.net g.1 .mdOut msgQos (leaf.retainAsPublished && retain) stored
          (identifierProperty leaf.identifier) true g.2
      (if r.1 = 1 then 1 else Rc.success, r.2)
    else (1, b)

/-- The search of `sub__messages_queue` for one message. -/
def subSend (env : Env) (sourceId topic : Bytes) (qos : Qos) (retain : Bool) (stored : MsgStore)
    (splitTopics : List Bytes) (b : State) : Rc × State :=
  let r := searchRoot (fun _ _ leaf b => subsSend env topic qos retain stored leaf b) b.ids sourceId
    splitTopics b.subs.tree b
  (r.1, { r.2.2 with subs := { r.2.2.subs with tree := r.2.1 } })

def subMessagesQueue (env : Env) (sourceId topic : Bytes) (qos : Qos) (retain : Bool)
    (stored : MsgStore) (b : State) : Rc × State :=
  let b := { b with passed := b.passed ++ [stored] }
  match subTopicTokenise topic with
  | .error _ => (1, b)
  | .ok (splitTopics, _) =>
    let b := { b with db := b.db.msgStoreRefInc stored.addr }
    let r := subSend env sourceId topic qos retain stored splitTopics b
    let b := if retain then retainStore stored splitTopics r.2 else r.2
    (r.1, { b with db := b.db.msgStoreRefDec stored.addr })

/-- A message as `db__message_store` gets it. -/
structure NewMsg where
  sourceMid : UInt16
  topic : Bytes
  payload : Bytes
  properties : List Property
  qos : Qos
  retain : Bool
  deriving DecidableEq, Repr

def messageStore (source : Option Context) (msg : NewMsg) (messageExpiryInterval : Nat)
    (db : MosquittoDb) : MsgStore × MosquittoDb :=
  let stored : MsgStore :=
    { addr := db.lastDbId + 1, origin := if source.isSome then .moClient else .moBroker
      sourceId := (source.bind (·.id)).getD [], sourceMid := msg.sourceMid, topic := msg.topic
      payload := msg.payload, properties := msg.properties
      messageExpiryTime :=
        if messageExpiryInterval > 0 then db.nowRealS + messageExpiryInterval else 0
      qos := msg.qos, retain := msg.retain }
  (stored, { db with lastDbId := db.lastDbId + 1
                     msgStore := db.msgStore.set stored.addr ⟨stored, 0, []⟩ })

def messagesEasyQueue (env : Env) (source : Option Context) (msg : NewMsg)
    (messageExpiryInterval : Nat) (b : State) : Rc × State :=
  let msg := { msg with sourceMid := 0, retain := b.db.config.retainAvailable && msg.retain }
  let r := messageStore source msg messageExpiryInterval b.db
  subMessagesQueue env r.1.sourceId r.1.topic r.1.qos r.1.retain r.1 { b with db := r.2 }

end AdaptiveMqtt.Broker
