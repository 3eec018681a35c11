import AdaptiveMqtt.Lib.Heap
import AdaptiveMqtt.Topic.Model

/-!
# The subscription tree

`src/subs.c`. A `struct mosquitto__subhier` is addressed by its path: the key of
its root in `db.subs` followed by the `topic` of every node below it, so
`sub->parent` is `dropLast` and `HASH_FIND` in `children` is a lookup of the
path extended by one level. A live node never changes its path and no two live
nodes share one. A pointer to a node that has been freed is a path without a
node; a `struct mosquitto__subshared` is addressed by its node and its name.

The functions that edit the tree work on `SubSt`: the tree and the `subs` array
of the calling client. `ids` gives the client id of a context (`none` is
`NULL`). The search is generic in the state `σ` that `subs__send` changes; a leaf
is handed to `send` together with the node and the group it hangs in.
-/

namespace AdaptiveMqtt.Sub

open Lib Topic

/-- `struct mosquitto__subleaf`. -/
structure SubLeaf where
  context : CtxId
  identifier : Nat
  qos : Qos
  noLocal : Bool
  retainAsPublished : Bool
  deriving DecidableEq, Repr

/-- `struct mosquitto__subshared`: a shared group, its next receiver first. -/
structure SubShared where
  name : Bytes
  subs : List SubLeaf
  deriving DecidableEq, Repr

abbrev Path := List Bytes

/-- `struct mosquitto__subhier` without its links. -/
structure SubHier where
  subs : List SubLeaf
  shared : List SubShared
  deriving DecidableEq, Repr

structure ClientSub where
  hier : Path
  shared : Option Bytes
  topicFilter : Bytes
  deriving DecidableEq, Repr

/-- `db.subs` with its two counters. -/
structure SubTree where
  nodes : Heap Path SubHier
  subscriptionCount : Int
  sharedSubscriptionCount : Int

/-- The tree and the `subs` array of the client at work. -/
structure SubSt where
  tree : SubTree
  subs : List (Option ClientSub)

namespace SubHier

def empty : SubHier := ⟨[], []⟩

def findShared (h : SubHier) (name : Bytes) : Option SubShared :=
  h.shared.find? (·.name = name)

/-- `HASH_ADD_KEYPTR(hh, hier->shared, name, shared)` of a group without members. -/
def addShared (h : SubHier) (name : Bytes) : SubHier :=
  { h with shared := h.shared ++ [⟨name, []⟩] }

/-- Replace the members of a group. -/
def setShared (h : SubHier) (name : Bytes) (subs : List SubLeaf) : SubHier :=
  { h with shared := h.shared.map fun g => if g.name = name then { g with subs := subs } else g }

def delShared (h : SubHier) (name : Bytes) : SubHier :=
  { h with shared := h.shared.eraseP (·.name = name) }

end SubHier

namespace SubTree

def hasChildren (t : SubTree) (p : Path) : Bool :=
  t.nodes.keys.any fun q => q ≠ [] ∧ q.dropLast = p

def setNode (t : SubTree) (p : Path) (h : SubHier) : SubTree := { t with nodes := t.nodes.set p h }

def delNode (t : SubTree) (p : Path) : SubTree := { t with nodes := t.nodes.del p }

def addHierEntry (t : SubTree) (p : Path) : SubTree :=
  match t.nodes.get p with
  | some _ => t
  | none => t.setNode p .empty

/-- The node has neither children nor subscriptions nor shared groups. -/
def isBare (t : SubTree) (p : Path) : Bool :=
  match t.nodes.get p with
  | none => false
  | some h => !t.hasChildren p && h.subs.isEmpty && h.shared.isEmpty

/-- The tree of `db__open`: the roots `""` and `"$SYS"`. -/
def dbOpen : SubTree :=
  ((SubTree.mk ∅ 0 0).addHierEntry [[]]).addHierEntry [ascii "$SYS"]

end SubTree

/-! ## Adding -/

section Add

variable (ids : CtxId → Option Bytes)

def subAddLeaf (context : CtxId) (qos : Qos) (identifier : Nat) (options : UInt8) :
    List SubLeaf → Rc × List SubLeaf
  | [] =>
    (Rc.success, [{ context, qos, identifier
                    noLocal := options &&& 0x04 ≠ 0
                    retainAsPublished := options &&& 0x08 ≠ 0 }])
  | leaf :: rest =>
    if ids leaf.context ≠ none ∧ ids leaf.context = ids context then
      (Rc.subExists, { leaf with qos, identifier } :: rest)
    else
      let r := subAddLeaf context qos identifier options rest
      (r.1, leaf :: r.2)

/-- The first `NULL` slot of `context->subs`, or a new one at its end. -/
def takeSlot (csub : ClientSub) : List (Option ClientSub) → List (Option ClientSub)
  | [] => [some csub]
  | none :: subs => some csub :: subs
  | some c :: subs => some c :: takeSlot csub subs

/-- The return value of `sub__add_shared` and `sub__add_normal`. -/
def addResult (protocol : Protocol) (rc : Rc) : Rc :=
  if protocol = .mqtt31 ∨ protocol = .mqtt5 then rc else Rc.success

def subAddShared (context : CtxId) (protocol : Protocol) (sub : Bytes) (qos : Qos)
    (identifier : Nat) (options : UInt8) (subhier : Path) (sharename : Bytes) (st : SubSt) :
    Rc × SubSt :=
  match st.tree.nodes.get subhier with
  | none => (Rc.success, st)
  | some h =>
    let h := if (h.findShared sharename).isSome then h else h.addShared sharename
    let members := ((h.findShared sharename).map (·.subs)).getD []
    let r := subAddLeaf ids context qos identifier options members
    let tree := st.tree.setNode subhier (h.setShared sharename r.2)
    if r.1 ≠ Rc.subExists then
      (addResult protocol r.1,
        { tree := { tree with sharedSubscriptionCount := tree.sharedSubscriptionCount + 1 }
          subs := takeSlot ⟨subhier, some sharename, sub⟩ st.subs })
    else (addResult protocol r.1, { st with tree })

def subAddNormal (context : CtxId) (protocol : Protocol) (sub : Bytes) (qos : Qos)
    (identifier : Nat) (options : UInt8) (subhier : Path) (st : SubSt) : Rc × SubSt :=
  match st.tree.nodes.get subhier with
  | none => (Rc.success, st)
  | some h =>
    let r := subAddLeaf ids context qos identifier options h.subs
    let tree := st.tree.setNode subhier { h with subs := r.2 }
    if r.1 ≠ Rc.subExists then
      (addResult protocol r.1,
        { tree := { tree with subscriptionCount := tree.subscriptionCount + 1 }
          subs := takeSlot ⟨subhier, none, sub⟩ st.subs })
    else (addResult protocol r.1, { st with tree })

/-- The `while(topics[topic_index])` loop of `sub__add_context`: the node reached,
or the code for a level that is too long. -/
def addBranches : List Bytes → Path → SubTree → SubTree × Except Rc Path
  | [], subhier, t => (t, .ok subhier)
  | topic :: topics, subhier, t =>
    if topic.length > 65535 then (t, .error Rc.inval)
    else addBranches topics (subhier ++ [topic]) (t.addHierEntry (subhier ++ [topic]))

def subAddContext (context : CtxId) (protocol : Protocol) (topicFilter : Bytes) (qos : Qos)
    (identifier : Nat) (options : UInt8) (subhier : Path) (topics : List Bytes)
    (sharename : Option Bytes) (st : SubSt) : Rc × SubSt :=
  match addBranches topics subhier st.tree with
  | (tree, .error rc) => (rc, { st with tree })
  | (tree, .ok node) =>
    let st := { st with tree }
    if ids context = none then (Rc.success, st)
    else
      match sharename with
      | some name =>
        subAddShared ids context protocol topicFilter qos identifier options node name st
      | none => subAddNormal ids context protocol topicFilter qos identifier options node st

def subAdd (context : CtxId) (protocol : Protocol) (sub : Bytes) (qos : Qos) (identifier : Nat)
    (options : UInt8) (st : SubSt) : Rc × SubSt :=
  match subTopicTokenise sub with
  | .error rc => (rc, st)
  | .ok (topics, sharename) =>
    let root := topics.headD []
    if root.length > 65535 then (Rc.inval, st)
    else
      subAddContext ids context protocol sub qos identifier options [root] topics sharename
        { st with tree := st.tree.addHierEntry [root] }

end Add

/-! ## Removing -/

/-- Set the first slot that satisfies `p` to `NULL`. -/
def clearSlot (p : ClientSub → Bool) : List (Option ClientSub) → List (Option ClientSub)
  | [] => []
  | some c :: subs => if p c then none :: subs else some c :: clearSlot p subs
  | none :: subs => none :: clearSlot p subs

/-- `sub__remove_normal`. The slot is found by the node alone, whatever its
`shared` says. -/
def subRemoveNormal (context : CtxId) (subhier : Path) (reason : UInt8) (st : SubSt) :
    Rc × UInt8 × SubSt :=
  match st.tree.nodes.get subhier with
  | none => (Rc.noSubscribers, reason, st)
  | some h =>
    if h.subs.any (·.context = context) then
      let tree := st.tree.setNode subhier { h with subs := h.subs.eraseP (·.context = context) }
      (Rc.success, 0,
        { tree := { tree with subscriptionCount := tree.subscriptionCount - 1 }
          subs := clearSlot (fun c => c.hier = subhier) st.subs })
    else (Rc.noSubscribers, reason, st)

/-- Take a member out of a group; the group goes with its last member. -/
def dropMember (context : CtxId) (g : SubShared) (h : SubHier) : SubHier :=
  let members := g.subs.eraseP (·.context = context)
  if members.isEmpty then h.delShared g.name else h.setShared g.name members

def subRemoveShared (context : CtxId) (subhier : Path) (reason : UInt8) (sharename : Bytes)
    (st : SubSt) : Rc × UInt8 × SubSt :=
  match st.tree.nodes.get subhier with
  | none => (Rc.noSubscribers, reason, st)
  | some h =>
    match h.findShared sharename with
    | none => (Rc.noSubscribers, reason, st)
    | some g =>
      if g.subs.any (·.context = context) then
        let tree := st.tree.setNode subhier (dropMember context g h)
        (Rc.success, 0,
          { tree := { tree with sharedSubscriptionCount := tree.sharedSubscriptionCount - 1 }
            subs := clearSlot (fun c => c.hier = subhier ∧ c.shared = some sharename) st.subs })
      else (Rc.noSubscribers, reason, st)

def subRemoveRecurse (context : CtxId) (sharename : Option Bytes) :
    List Bytes → Path → UInt8 → SubSt → Rc × UInt8 × SubSt
  | [], subhier, reason, st =>
    match sharename with
    | some name => subRemoveShared context subhier reason name st
    | none => subRemoveNormal context subhier reason st
  | topic :: topics, subhier, reason, st =>
    let branch := subhier ++ [topic]
    match st.tree.nodes.get branch with
    | none => (Rc.success, reason, st)
    | some _ =>
      let r := subRemoveRecurse context sharename topics branch reason st
      let st := r.2.2
      let tree := if st.tree.isBare branch then st.tree.delNode branch else st.tree
      (Rc.success, r.2.1, { st with tree })

def subRemove (context : CtxId) (sub : Bytes) (reason : UInt8) (st : SubSt) : Rc × UInt8 × SubSt :=
  match subTopicTokenise sub with
  | .error rc => (rc, reason, st)
  | .ok (topics, sharename) =>
    let root := topics.headD []
    match st.tree.nodes.get [root] with
    | none => (Rc.success, reason, st)
    -- 0x11: no subscription existed
    | some _ => subRemoveRecurse context sharename topics [root] 0x11 st

/-! ## Cleaning a session and handing it over -/

/-- The `do … while(hier)` loop over `tmp_remove_subs`: free the node and go on
with its parent while that is bare and not a root. -/
def tmpRemoveSubs : Nat → Path → SubTree → SubTree
  | 0, _, t => t
  | fuel + 1, sub, t =>
    if sub.length ≤ 1 then t
    else
      match t.nodes.get sub with
      | none => t
      | some h =>
        if t.hasChildren sub || !h.subs.isEmpty then t
        else
          let t := t.delNode sub
          let parent := sub.dropLast
          if t.isBare parent && decide (1 < parent.length) then tmpRemoveSubs fuel parent t else t

/-- The leaf one slot of `sub__clean_session` frees; `h` is the slot's node. -/
def cleanLeaf (context : CtxId) (csub : ClientSub) (h : SubHier) (t : SubTree) : SubTree :=
  match csub.shared with
  | some name =>
    match h.findShared name with
    | none => t
    | some g =>
      if g.subs.any (·.context = context) then
        { t.setNode csub.hier (dropMember context g h) with
          sharedSubscriptionCount := t.sharedSubscriptionCount - 1 }
      else t
  | none =>
    if h.subs.any (·.context = context) then
      { t.setNode csub.hier { h with subs := h.subs.eraseP (·.context = context) } with
        subscriptionCount := t.subscriptionCount - 1 }
    else t

def cleanSlot (context : CtxId) (csub : ClientSub) (t : SubTree) : SubTree :=
  match t.nodes.get csub.hier with
  | none => t
  | some h =>
    let t := cleanLeaf context csub h t
    if t.isBare csub.hier && decide (1 < csub.hier.length) then
      tmpRemoveSubs csub.hier.length csub.hier t
    else t

def subCleanSession (context : CtxId) (st : SubSt) : SubSt :=
  { tree := st.subs.foldl (fun t slot => slot.elim t (cleanSlot context · t)) st.tree
    subs := [] }

/-- `if(leaf->context == found_context) leaf->context = context`. -/
def repoint (found context : CtxId) (leaf : SubLeaf) : SubLeaf :=
  if leaf.context = found then { leaf with context } else leaf

/-- The leaves one slot of the hand-over repoints; `h` is the slot's node. -/
def handOverLeaves (found context : CtxId) (csub : ClientSub) (h : SubHier) : SubHier :=
  let h := { h with subs := h.subs.map (repoint found context) }
  match csub.shared with
  | none => h
  | some name =>
    match h.findShared name with
    | none => h
    | some g => h.setShared name (g.subs.map (repoint found context))

/-- One slot of the subscription hand-over in `connect__on_authorised`. -/
def handOverSlot (found context : CtxId) (csub : ClientSub) (t : SubTree) : SubTree :=
  match t.nodes.get csub.hier with
  | none => t
  | some h => t.setNode csub.hier (handOverLeaves found context csub h)

/-- The subscription hand-over of `connect__on_authorised`: `subs` is the array
taken over from `found`. -/
def subHandOver (found context : CtxId) (subs : List (Option ClientSub)) (t : SubTree) : SubTree :=
  subs.foldl (fun t slot => slot.elim t (handOverSlot found context · t)) t

/-! ## Searching -/

section Search

variable {σ : Type} (send : Path → Option Bytes → SubLeaf → σ → Rc × σ)
  (ids : CtxId → Option Bytes)

/-- `subs__shared_process`: the head of every group receives and goes to the
back of its group. -/
def subsSharedProcess (hier : Path) : List SubShared → σ → Rc × List SubShared × σ
  | [], s => (Rc.success, [], s)
  | g :: groups, s =>
    match g.subs with
    -- a group is freed with its last member
    | [] =>
      let r := subsSharedProcess hier groups s
      (r.1, g :: r.2.1, r.2.2)
    | leaf :: rest =>
      let r2 := send hier (some g.name) leaf s
      let r := subsSharedProcess hier groups r2.2
      (if r2.1 ≠ Rc.success then 1 else r.1, { g with subs := rest ++ [leaf] } :: r.2.1, r.2.2)

def subsLeafLoop (hier : Path) (sourceId : Bytes) : List SubLeaf → Rc → σ → Rc × σ
  | [], rc, s => (rc, s)
  | leaf :: rest, rc, s =>
    if ids leaf.context = none ∨ (leaf.noLocal ∧ ids leaf.context = some sourceId) then
      subsLeafLoop hier sourceId rest rc s
    else
      let r := send hier none leaf s
      subsLeafLoop hier sourceId rest (if r.1 ≠ Rc.success then 1 else rc) r.2

/-- `subs__process`. The callers pass a `source_id` that is not `NULL`. -/
def subsProcess (sourceId : Bytes) (hier : Path) (t : SubTree) (s : σ) : Rc × SubTree × σ :=
  match t.nodes.get hier with
  | none => (Rc.noSubscribers, t, s)
  | some h =>
    let r := subsSharedProcess send hier h.shared s
    let t := t.setNode hier { h with shared := r.2.1 }
    let r' := subsLeafLoop send ids hier sourceId h.subs r.1 r.2.2
    if h.subs ≠ [] ∨ h.shared ≠ [] then (r'.1, t, r'.2) else (Rc.noSubscribers, t, r'.2)

/-- What `sub__search` does with a return code: note a subscriber, go on after
`MOSQ_ERR_NO_SUBSCRIBERS`, and return any other code at once. -/
def absorb (r : Rc × SubTree × σ) (found : Bool) (k : Bool → SubTree → σ → Rc × SubTree × σ) :
    Rc × SubTree × σ :=
  if r.1 = Rc.success then k true r.2.1 r.2.2
  else if r.1 ≠ Rc.noSubscribers then r
  else k found r.2.1 r.2.2

/-- The `#` part of `sub__search` and its return value. -/
def searchHash (sourceId : Bytes) (subhier : Path) (found : Bool) (t : SubTree) (s : σ) :
    Rc × SubTree × σ :=
  let done := fun found t s =>
    (if found = true then (Rc.success, t, s) else (Rc.noSubscribers, t, s) : Rc × SubTree × σ)
  let branch := subhier ++ [[hash]]
  if (t.nodes.get branch).isSome ∧ t.hasChildren branch = false then
    absorb (subsProcess send ids sourceId branch t s) found done
  else done found t s

/-- The literal branch and the `+` branch of `sub__search`, treated alike: search
below the child, and serve it at the end of the topic. -/
def searchBranch (sourceId : Bytes) (search : Path → SubTree → σ → Rc × SubTree × σ) (last : Bool)
    (branch : Path) (found : Bool) (t : SubTree) (s : σ)
    (k : Bool → SubTree → σ → Rc × SubTree × σ) : Rc × SubTree × σ :=
  match t.nodes.get branch with
  | none => k found t s
  | some _ =>
    absorb (search branch t s) found fun found t s =>
      if last then absorb (subsProcess send ids sourceId branch t s) found k else k found t s

def subSearch (sourceId : Bytes) : List Bytes → Path → SubTree → σ → Rc × SubTree × σ
  | [], subhier, t, s => searchHash send ids sourceId subhier false t s
  | topic :: topics, subhier, t, s =>
    let visit := searchBranch send ids sourceId (subSearch sourceId topics) topics.isEmpty
    visit (subhier ++ [topic]) false t s fun found t s =>
      visit (subhier ++ [[plus]]) found t s fun found t s =>
        searchHash send ids sourceId subhier found t s

/-- The search of `sub__messages_queue`: find the root and descend from it. -/
def searchRoot (sourceId : Bytes) (splitTopics : List Bytes) (t : SubTree) (s : σ) :
    Rc × SubTree × σ :=
  let root := [splitTopics.headD []]
  match t.nodes.get root with
  | none => (Rc.success, t, s)
  | some _ => subSearch send ids sourceId splitTopics root t s

/-- What `sub__messages_queue` does with the tree. -/
def searchTopic (sourceId topic : Bytes) (t : SubTree) (s : σ) : Rc × SubTree × σ :=
  match subTopicTokenise topic with
  | .error _ => (1, t, s)
  | .ok (splitTopics, _) => searchRoot send ids sourceId splitTopics t s

end Search

/-! ## Histories -/

inductive SubOp where
  | add (context : CtxId) (sub : Bytes) (qos : Qos) (identifier : Nat) (options : UInt8)
  | remove (context : CtxId) (sub : Bytes)

/-- The tree and the `subs` array of every client. -/
structure SubWorld where
  tree : SubTree
  subs : CtxId → List (Option ClientSub)

namespace SubWorld

def init : SubWorld := ⟨.dbOpen, fun _ => []⟩

/-- Run a tree edit for one client. -/
def edit (w : SubWorld) (context : CtxId) (f : SubSt → SubSt) : SubWorld :=
  let st := f ⟨w.tree, w.subs context⟩
  ⟨st.tree, Function.update w.subs context st.subs⟩

def step (ids : CtxId → Option Bytes) (protocol : CtxId → Protocol) (w : SubWorld) :
    SubOp → SubWorld
  | .add c sub qos identifier options =>
    w.edit c fun st => (subAdd ids c (protocol c) sub qos identifier options st).2
  | .remove c sub => w.edit c fun st => (subRemove c sub 0 st).2.2

def run (ids : CtxId → Option Bytes) (protocol : CtxId → Protocol) (ops : List SubOp) : SubWorld :=
  ops.foldl (step ids protocol) init

end SubWorld

end AdaptiveMqtt.Sub
