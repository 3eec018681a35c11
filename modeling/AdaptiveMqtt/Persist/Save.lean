import AdaptiveMqtt.Broker.Model
import AdaptiveMqtt.Persist.Chunk

/-!
# Saving the database

`src/persist_write.c`: what `persist__backup` writes, chunk by chunk. Nothing fails but the
writer of a property list.

`persist__client_save` uses one chunk for all clients. A client without a username or without
a listener is written with what the last client that had one left there, turned round by every
writer since: its chunk is its own exactly if that is zero (`client_save_independent_iff`).
-/

namespace AdaptiveMqtt.Persist

open Lib Packet Db Broker AdaptiveMqtt.Sub

/-- A `char *` to a string, with what lies behind the terminating NUL. -/
structure CString where
  text : Bytes
  behind : Memory

def CString.pointer (s : CString) : Memory := fun i => (s.text ++ [0]).getD i (s.behind i)

/-- The username and the port of the listener, of a context or of the source of a message. -/
structure Login where
  username : Option CString
  listener : Option UInt16

/-- A context that `persist__client_save` comes to. -/
structure Client where
  context : Context
  login : Login

def Client.id (c : Client) : Bytes := c.context.id.getD []

/-- The broker and what only its persistence file needs. -/
structure World where
  broker : State
  logins : CtxId → Login
  origins : StoreId → Login

inductive Chunk where
  | cfg (chunk : PfCfg)
  | msgStore (chunk : PMsgStore Memory)
  | client (chunk : PClient Memory)
  | clientMsg (chunk : PClientMsg Memory)
  | sub (chunk : PSub Memory)
  | retain (chunk : PfRetain)

section Host

variable (host : ByteOrder)

def Chunk.write : Chunk → Except Halt Bytes
  | cfg chunk => .ok (persistChunkCfgWriteV6 host chunk)
  | msgStore chunk => persistChunkMessageStoreWriteV6 host chunk
  | client chunk => .ok (persistChunkClientWriteV6 host chunk).2
  | clientMsg chunk => persistChunkClientMsgWriteV6 host chunk
  | sub chunk => .ok (persistChunkSubWriteV6 host chunk)
  | retain chunk => .ok (persistChunkRetainWriteV6 host chunk)

/-! ## Messages -/

/-- `!strncmp(topic, "$SYS", 4)`. -/
def isSys (topic : Bytes) : Bool := topic.take 4 = ascii "$SYS"

/-- A `$SYS` message that is only retained is not saved. -/
def unsaved (e : StoreEntry) : Bool :=
  isSys e.store.topic && decide (e.refCount ≤ 1) && e.destIds.isEmpty

def stateByte : MsgState → UInt8
  | .invalid => 0
  | .publishQos0 => 1
  | .publishQos1 => 2
  | .waitForPuback => 3
  | .publishQos2 => 4
  | .waitForPubrec => 5
  | .resendPubrel => 6
  | .waitForPubrel => 7
  | .resendPubcomp => 8
  | .waitForPubcomp => 9
  | .sendPubrec => 10
  | .queued => 11
  | .storage => 12

def directionByte : Direction → UInt8
  | .mdIn => 0
  | .mdOut => 1

def qosByte (qos : Qos) : UInt8 := UInt8.ofNat qos.toNat

def clientMsgChunk (id : Bytes) (cmsg : ClientMsg) : PClientMsg Memory where
  F := { storeId := UInt64.ofNat cmsg.store.addr
         mid := cmsg.mid
         idLen := UInt16.ofNat id.length
         qos := qosByte cmsg.qos
         retainDup := (cmsg.retain.toUInt8 &&& 0x0F) <<< 4 ||| (cmsg.dup.toUInt8 &&& 0x0F)
         direction := directionByte cmsg.direction
         state := stateByte cmsg.state }
  clientId := cstr id
  properties := cmsg.properties

def persistClientMessagesSave (db : MosquittoDb) (id : Bytes) (queue : List ClientMsg) :
    List Chunk :=
  (queue.filter fun cmsg => !(db.msgStore.get cmsg.store.addr).any unsaved).map
    fun cmsg => .clientMsg (clientMsgChunk id cmsg)

def msgStoreChunk (origin : Login) (stored : MsgStore) : PMsgStore Memory where
  F := { storeId := UInt64.ofNat stored.addr
         expiryTime := Int64.ofInt stored.messageExpiryTime
         payloadlen := UInt32.ofNat stored.payloadlen
         sourceMid := stored.sourceMid
         sourceIdLen := UInt16.ofNat stored.sourceId.length
         sourceUsernameLen := UInt16.ofNat ((origin.username.map (·.text.length)).getD 0)
         topicLen := UInt16.ofNat stored.topic.length
         sourcePort := origin.listener.getD 0
         qos := qosByte stored.qos
         -- `$SYS` messages are not saved as retained
         retain := if isSys stored.topic then 0 else stored.retain.toUInt8 }
  payload := cstr stored.payload
  sourceId := cstr stored.sourceId
  sourceUsername := (origin.username.map CString.pointer).getD (cstr [])
  topic := cstr stored.topic
  properties := stored.properties

def persistMessageStoreSave (w : World) : List Chunk :=
  ((w.broker.db.msgStore.entries.map (·.2)).filter fun e =>
      !decide (e.refCount < 1) && !unsaved e).map
    fun e => .msgStore (msgStoreChunk (w.origins e.store.addr) e.store)

/-! ## Clients -/

/-- The chunk after `memset`. -/
def PClient.zero : PClient Memory := ⟨⟨0, 0, 0, 0, 0, 0, 0⟩, cstr [], cstr []⟩

/-- The assignments of the loop of `persist__client_save`. -/
def fillClient (chunk : PClient Memory) (c : Client) : PClient Memory :=
  let chunk := { chunk with
    F := { chunk.F with
      sessionExpiryTime := Int64.ofInt c.context.sessionExpiryTime
      sessionExpiryInterval := UInt32.ofNat c.context.sessionExpiryInterval
      lastMid := c.context.lastMid
      idLen := UInt16.ofNat c.id.length }
    clientId := cstr c.id }
  let chunk :=
    match c.login.username with
    | some username => { chunk with
        F := { chunk.F with usernameLen := UInt16.ofNat username.text.length }
        username := username.pointer }
    | none => chunk
  match c.login.listener with
  | some port => { chunk with F := { chunk.F with listenerPort := port } }
  | none => chunk

/-- The client chunks that the loop of `persist__client_save` writes, each with its client. -/
def clientChunks : PClient Memory → List Client → List (Client × PClient Memory)
  | _, [] => []
  | chunk, c :: clients =>
    if c.context.cleanStart = false then
      let chunk := fillClient chunk c
      if chunk.F.idLen = 0 then clientChunks chunk clients
      else (c, chunk) :: clientChunks (persistChunkClientWriteV6 host chunk).1 clients
    else clientChunks chunk clients

/-- The contexts of `db.contexts_by_id`. -/
def World.clients (w : World) : List Client :=
  w.broker.contextsById.entries.filterMap fun e =>
    (w.broker.contexts.get e.2).map fun context => ⟨context, w.logins e.2⟩

/-- `persist__client_save`. It does not come to `msgs_in.storage` and `msgs_out.storage`. -/
def persistClientSave (w : World) : List Chunk :=
  (clientChunks host PClient.zero w.clients).flatMap fun (c, chunk) =>
    Chunk.client chunk ::
      (persistClientMessagesSave w.broker.db c.id c.context.msgsIn.inflight ++
        persistClientMessagesSave w.broker.db c.id c.context.msgsIn.queued ++
        persistClientMessagesSave w.broker.db c.id c.context.msgsOut.inflight ++
        persistClientMessagesSave w.broker.db c.id c.context.msgsOut.queued)

/-! ## Subscriptions -/

def subChunk (id topic : Bytes) (leaf : SubLeaf) : PSub Memory where
  F := { identifier := UInt32.ofNat leaf.identifier
         idLen := UInt16.ofNat id.length
         topicLen := UInt16.ofNat topic.length
         qos := qosByte leaf.qos
         options := leaf.noLocal.toUInt8 <<< 2 ||| leaf.retainAsPublished.toUInt8 <<< 3
         padding := 0 }
  clientId := cstr id
  topic := cstr topic

def savedId (b : State) (c : CtxId) : Option Bytes :=
  (b.contexts.get c).bind fun ctx => if ctx.cleanStart = false then ctx.id else none

/-- The topic of a node below `topic`. -/
def thistopic (topic : Bytes) (level : Nat) (nodeTopic : Bytes) : Bytes :=
  if level > 1 ∨ topic ≠ [] then topic ++ slash :: nodeTopic else nodeTopic

def subChildren (b : State) (node : Path) : List Path :=
  b.subs.tree.nodes.keys.filter fun p => p ≠ [] ∧ p.dropLast = node

/-- `persist__subs_save`. It does not come to the groups of a node. No node is at a depth of
`fuel`. -/
def persistSubsSave (b : State) : Nat → Path → Bytes → Nat → List Chunk
  | 0, _, _, _ => []
  | fuel + 1, node, topic, level =>
    let topic := thistopic topic level (node.getLastD [])
    let subs := (b.subs.tree.nodes.get node).elim [] (·.subs)
    (subs.filterMap fun leaf => (savedId b leaf.context).map fun id => .sub (subChunk id topic leaf)) ++
      (subChildren b node).flatMap fun child => persistSubsSave b fuel child topic (level + 1)

/-- `persist__subs_save_all`: the first child of every root. -/
def persistSubsSaveAll (b : State) : List Chunk :=
  (b.subs.tree.nodes.keys.filter fun p => p.length = 1).flatMap fun root =>
    match subChildren b root with
    | [] => []
    | child :: _ => persistSubsSave b b.subs.tree.nodes.keys.length child [] 0

/-! ## Retained messages -/

def persistRetainSave (b : State) : Nat → Path → List Chunk
  | 0, _ => []
  | fuel + 1, node =>
    match b.retains.get node with
    | none => []
    | some h =>
      ((h.retained.filter fun stored => !isSys stored.topic).map fun stored =>
          Chunk.retain ⟨UInt64.ofNat stored.addr⟩).toList ++
        h.children.flatMap fun topic => persistRetainSave b fuel (node ++ [topic])

/-- `persist__retain_save_all`: the first child of every root. -/
def persistRetainSaveAll (b : State) : List Chunk :=
  (b.retains.keys.filter fun p => p.length = 1).flatMap fun root =>
    match (b.retains.get root).elim [] (·.children) with
    | [] => []
    | topic :: _ => persistRetainSave b b.retains.keys.length (root ++ [topic])

/-! ## The file -/

def magic : Bytes := [0x00, 0xB5, 0x00] ++ ascii "mosquitto db"

def backupChunks (w : World) (shutdown : Bool) : List Chunk :=
  .cfg { lastDbId := UInt64.ofNat w.broker.db.lastDbId, shutdown := shutdown.toUInt8
         dbidSize := 8, padding := 0, padding' := 0 } ::
    (persistMessageStoreSave w ++ persistClientSave host w ++ persistSubsSaveAll w.broker ++
      persistRetainSaveAll w.broker)

/-- `persist__backup`: the file it writes. -/
def persistBackup (w : World) (shutdown : Bool) : Except Halt Bytes := do
  let chunks ← (backupChunks host w shutdown).mapM (Chunk.write host)
  pure (magic ++ mem32 host 0 ++ mem32 host (htonl host 6) ++ chunks.flatten)

end Host

/-! ## One chunk for all clients -/

section Independent

variable (host : ByteOrder)

def Client.Saved (c : Client) : Prop :=
  c.context.cleanStart = false ∧ UInt16.ofNat c.id.length ≠ 0

def clientBytes (chunk : PClient Memory) : Bytes := (persistChunkClientWriteV6 host chunk).2

/-- The bytes of the chunk of a client that is saved alone. -/
def ownBytes (c : Client) : Bytes := clientBytes host (fillClient PClient.zero c)

def Login.usernameLen (login : Login) : Option UInt16 :=
  login.username.map fun username => UInt16.ofNat username.text.length

/-- What the last client that had one put into a member of the chunk. -/
def leftover (member : Login → Option UInt16) (before : List Client) : UInt16 :=
  ((before.filter fun c => c.context.cleanStart = false).filterMap fun c =>
    member c.login).getLastD 0

/-- Nothing was left in the members that the client does not set. -/
def Clear (before : List Client) (c : Client) : Prop :=
  (c.login.username = none → leftover Login.usernameLen before = 0) ∧
    (c.login.listener = none → leftover Login.listener before = 0)

/-- The chunk of the loop after the clients `before`. -/
structure LeftBy (before : List Client) (chunk : PClient Memory) : Prop where
  padding : chunk.F.padding = 0
  usernameLen : chunk.F.usernameLen = 0 ↔ leftover Login.usernameLen before = 0
  listenerPort : chunk.F.listenerPort = 0 ↔ leftover Login.listener before = 0

variable {host} {before : List Client} {chunk : PClient Memory} {c : Client}

theorem htons_eq_zero {word : UInt16} : htons host word = 0 ↔ word = 0 := by
  have hzero : htons host 0 = 0 := by cases host <;> rfl
  constructor
  · intro h
    rw [← htons_htons word, h, hzero]
  · rintro rfl
    exact hzero

theorem leftover_append_skipped (member : Login → Option UInt16)
    (hc : c.context.cleanStart ≠ false) : leftover member (before ++ [c]) = leftover member before := by
  simp [leftover, List.filter_append, hc]

theorem leftover_append_none {member : Login → Option UInt16} (hm : member c.login = none) :
    leftover member (before ++ [c]) = leftover member before := by
  by_cases hc : c.context.cleanStart = false
  · simp [leftover, List.filter_append, List.filterMap_append, hc, hm]
  · exact leftover_append_skipped member hc

theorem leftover_append_some {member : Login → Option UInt16} {v : UInt16}
    (hc : c.context.cleanStart = false) (hm : member c.login = some v) :
    leftover member (before ++ [c]) = v := by
  simp [leftover, List.filter_append, List.filterMap_append, hc, hm]

theorem fillClient_usernameLen (chunk : PClient Memory) (c : Client) :
    (fillClient chunk c).F.usernameLen = (c.login.usernameLen).getD chunk.F.usernameLen := by
  unfold fillClient Login.usernameLen
  cases c.login.username <;> cases c.login.listener <;> rfl

theorem fillClient_listenerPort (chunk : PClient Memory) (c : Client) :
    (fillClient chunk c).F.listenerPort = c.login.listener.getD chunk.F.listenerPort := by
  unfold fillClient
  cases c.login.username <;> cases c.login.listener <;> rfl

theorem fillClient_padding (chunk : PClient Memory) (c : Client) :
    (fillClient chunk c).F.padding = chunk.F.padding := by
  unfold fillClient
  cases c.login.username <;> cases c.login.listener <;> rfl

theorem fillClient_idLen (chunk : PClient Memory) (c : Client) :
    (fillClient chunk c).F.idLen = UInt16.ofNat c.id.length := by
  unfold fillClient
  cases c.login.username <;> cases c.login.listener <;> rfl

theorem leftBy_zero : LeftBy [] PClient.zero := ⟨rfl, Iff.rfl, Iff.rfl⟩

theorem leftBy_skipped (h : LeftBy before chunk) (hc : c.context.cleanStart ≠ false) :
    LeftBy (before ++ [c]) chunk := by
  refine ⟨h.padding, ?_, ?_⟩
  · rw [leftover_append_skipped _ hc]
    exact h.usernameLen
  · rw [leftover_append_skipped _ hc]
    exact h.listenerPort

theorem leftBy_fill (h : LeftBy before chunk) (hc : c.context.cleanStart = false) :
    LeftBy (before ++ [c]) (fillClient chunk c) := by
  refine ⟨by rw [fillClient_padding, h.padding], ?_, ?_⟩
  · rw [fillClient_usernameLen]
    cases hm : c.login.usernameLen with
    | none =>
      rw [leftover_append_none hm]
      exact h.usernameLen
    | some v =>
      rw [leftover_append_some hc hm]
      exact Iff.rfl
  · rw [fillClient_listenerPort]
    cases hm : c.login.listener with
    | none =>
      rw [leftover_append_none hm]
      exact h.listenerPort
    | some v =>
      rw [leftover_append_some hc hm]
      exact Iff.rfl

theorem leftBy_write (h : LeftBy before chunk) :
    LeftBy before (persistChunkClientWriteV6 host chunk).1 :=
  ⟨h.padding, htons_eq_zero.trans h.usernameLen, htons_eq_zero.trans h.listenerPort⟩

theorem PfClient.memory_inj {F F' : PfClient} {rest rest' : Bytes}
    (h : F.memory host ++ rest = F'.memory host ++ rest') : F = F' := by
  have hread := congrArg (PfClient.fread host) h
  rw [PfClient.fread_memory, PfClient.fread_memory, Except.ok.injEq, Prod.mk.injEq] at hread
  exact hread.1

/-- A file has the members of the chunk that was written. -/
theorem members_of_clientBytes {chunk chunk' : PClient Memory}
    (h : clientBytes host chunk = clientBytes host chunk') :
    chunk.F.usernameLen = chunk'.F.usernameLen ∧ chunk.F.listenerPort = chunk'.F.listenerPort := by
  unfold clientBytes persistChunkClientWriteV6 chunkHeader PfHeader.memory at h
  simp only [List.append_assoc] at h
  have hbody := (List.append_inj (List.append_inj h (by simp)).2 (by simp)).2
  have hF := PfClient.memory_inj hbody
  simp only [PfClient.mk.injEq] at hF
  obtain ⟨-, -, -, -, hport, hlen, -⟩ := hF
  have hlen' := congrArg (htons host) hlen
  have hport' := congrArg (htons host) hport
  rw [htons_htons, htons_htons] at hlen' hport'
  exact ⟨hlen', hport'⟩

theorem fillClient_eq_of_clear (hpad : chunk.F.padding = 0)
    (huser : c.login.username = none → chunk.F.usernameLen = 0)
    (hport : c.login.listener = none → chunk.F.listenerPort = 0) :
    (fillClient chunk c).F = (fillClient PClient.zero c).F ∧
      (fillClient chunk c).clientId = (fillClient PClient.zero c).clientId ∧
      ((fillClient chunk c).F.usernameLen = 0 ∨
        (fillClient chunk c).username = (fillClient PClient.zero c).username) := by
  unfold fillClient PClient.zero
  cases hu : c.login.username with
  | none =>
    cases hl : c.login.listener with
    | none => simp [hpad, huser hu, hport hl]
    | some port => simp [hpad, huser hu]
  | some username =>
    cases hl : c.login.listener with
    | none => simp [hpad, hport hl]
    | some port => simp [hpad]

theorem clientBytes_eq_own_iff (hpad : chunk.F.padding = 0) :
    clientBytes host (fillClient chunk c) = ownBytes host c ↔
      (c.login.username = none → chunk.F.usernameLen = 0) ∧
        (c.login.listener = none → chunk.F.listenerPort = 0) := by
  constructor
  · intro h
    obtain ⟨hlen, hport⟩ := members_of_clientBytes h
    rw [fillClient_usernameLen, fillClient_usernameLen] at hlen
    rw [fillClient_listenerPort, fillClient_listenerPort] at hport
    refine ⟨fun hu => ?_, fun hl => ?_⟩
    · have hnone : c.login.usernameLen = none := by rw [Login.usernameLen, hu, Option.map_none]
      rwa [hnone] at hlen
    · rwa [hl] at hport
  · rintro ⟨huser, hport⟩
    obtain ⟨hF, hid, hname⟩ := fillClient_eq_of_clear hpad huser hport
    unfold ownBytes clientBytes persistChunkClientWriteV6
    simp only
    rw [hid, ← hF]
    -- a username of no bytes is not read through its pointer
    rcases hname with hname | hname
    · rw [hname]
      rfl
    · rw [hname]

theorem independent_from : ∀ (clients : List Client) {before : List Client}
    {chunk : PClient Memory}, LeftBy before chunk →
    ((∀ p ∈ clientChunks host chunk clients, clientBytes host p.2 = ownBytes host p.1) ↔
      ∀ l₁ c l₂, clients = l₁ ++ c :: l₂ → c.Saved → Clear (before ++ l₁) c)
  | [], _, _, _ => by simp [clientChunks]
  | d :: clients, before, chunk, h => by
    -- the first client, and those behind it
    have hsplit : (∀ l₁ c l₂, d :: clients = l₁ ++ c :: l₂ → c.Saved → Clear (before ++ l₁) c) ↔
        (d.Saved → Clear before d) ∧ ∀ l₁ c l₂, clients = l₁ ++ c :: l₂ → c.Saved →
          Clear (before ++ [d] ++ l₁) c := by
      constructor
      · intro hall
        refine ⟨fun hd => ?_, fun l₁ c l₂ he hc => ?_⟩
        · have := hall [] d clients rfl hd
          rwa [List.append_nil] at this
        · have := hall (d :: l₁) c l₂ (by rw [he, List.cons_append]) hc
          rwa [List.append_cons] at this
      · rintro ⟨hfirst, hrest⟩ l₁ c l₂ he hc
        cases l₁ with
        | nil =>
          obtain ⟨rfl, -⟩ := List.cons_eq_cons.mp he
          rw [List.append_nil]
          exact hfirst hc
        | cons a l₁ =>
          obtain ⟨rfl, htail⟩ := List.cons_eq_cons.mp he
          rw [List.append_cons]
          exact hrest l₁ c l₂ htail hc
    rw [hsplit, clientChunks]
    by_cases hclean : d.context.cleanStart = false
    · simp only [if_pos hclean]
      have hfill := leftBy_fill h hclean
      rw [fillClient_idLen]
      by_cases hid : UInt16.ofNat d.id.length = 0
      · rw [if_pos hid, independent_from clients hfill]
        exact ⟨fun hall => ⟨fun hd => absurd hid hd.2, hall⟩, And.right⟩
      · rw [if_neg hid, List.forall_mem_cons, independent_from clients (leftBy_write hfill)]
        have hown : clientBytes host (fillClient chunk d) = ownBytes host d ↔ Clear before d := by
          rw [clientBytes_eq_own_iff h.padding, h.usernameLen, h.listenerPort]
          exact Iff.rfl
        rw [hown]
        have hsaved : d.Saved := ⟨hclean, hid⟩
        exact and_congr_left fun _ => ⟨fun hd _ => hd, fun hd => hd hsaved⟩
    · rw [if_neg hclean, independent_from clients (leftBy_skipped h hclean)]
      exact ⟨fun hall => ⟨fun hd => absurd hd.1 hclean, hall⟩, And.right⟩

/-- **A client is saved independently of the others exactly if** the last client before it that
had a username left none of its length to one without a username, and the last with a listener
left no port to one without a listener. -/
theorem client_save_independent_iff (host : ByteOrder) (clients : List Client) :
    (∀ p ∈ clientChunks host PClient.zero clients, clientBytes host p.2 = ownBytes host p.1) ↔
      ∀ before c after, clients = before ++ c :: after → c.Saved → Clear before c := by
  rw [independent_from clients leftBy_zero]
  simp only [List.nil_append]

/-- A client with a session that outlives its connection. -/
def Client.durable (id : Bytes) (login : Login) : Client :=
  ⟨{ Context.init Config.init none with id := some id, cleanStart := false }, login⟩

/-- **A client gets the username and the port of another one.** It has neither, and is saved
behind a client `a` with the username `me` on port 1883: on a little-endian host its chunk has
a username of 512 bytes, read from where that of `a` begins, and port 23303. -/
theorem client_save_leaks :
    let a := Client.durable (ascii "a") ⟨some ⟨ascii "me", fun _ => 0⟩, some 1883⟩
    let b := Client.durable (ascii "b") ⟨none, none⟩
    ∃ chunk alone, (b, chunk) ∈ clientChunks .little PClient.zero [a, b] ∧
      (b, alone) ∈ clientChunks .little PClient.zero [b] ∧
      chunk.F.usernameLen = 512 ∧ chunk.F.listenerPort = 23303 ∧
      clientBytes .little chunk ≠ clientBytes .little alone := by
  intro a b
  have hchunks : clientChunks .little PClient.zero [a, b] = [(a, fillClient PClient.zero a),
    (b, fillClient (persistChunkClientWriteV6 .little (fillClient PClient.zero a)).1 b)] := rfl
  have hlen : (fillClient (persistChunkClientWriteV6 .little
    (fillClient PClient.zero a)).1 b).F.usernameLen = 512 := by decide
  refine ⟨_, fillClient PClient.zero b, ?_, List.mem_singleton.mpr rfl, hlen, by decide, ?_⟩
  · rw [hchunks]
    exact List.mem_cons_of_mem _ (List.mem_singleton.mpr rfl)
  · intro h
    have hsame := (members_of_clientBytes h).1
    rw [hlen] at hsame
    exact absurd hsame (by decide)

end Independent

end AdaptiveMqtt.Persist
