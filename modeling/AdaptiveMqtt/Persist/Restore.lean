import AdaptiveMqtt.Broker.Session
import AdaptiveMqtt.Persist.Save

/-!
# Restoring the database

`src/persist_read.c`: `persist__restore` reads a file chunk by chunk into a broker that was
just opened. A message of a client refers to its store by the id the store had, so the stores
read so far are kept by their ids (`db.msg_store_load`).

`persistRestore_chunks`: a file with the bytes of chunks behind its head is restored chunk by
chunk, as `restoreChunk` has it. The formats before version 5 are not modelled.
-/

namespace AdaptiveMqtt.Persist

open Lib Reader Packet Topic Db Broker AdaptiveMqtt.Sub

structure Listeners where
  perListenerSettings : Bool
  ports : List UInt16
  deriving DecidableEq, Repr

/-- The broker with `db.msg_store_load`. -/
structure Restoring where
  world : World
  load : Heap UInt64 MsgStore

def World.dbOpen (config : Config) (clock : Nat → Reading) : World :=
  ⟨State.dbOpen config clock, fun _ => ⟨none, none⟩, fun _ => ⟨none, none⟩⟩

/-! ## The values of a chunk -/

/-- The states by number; the broker writes no other numbers. -/
def stateOf (b : UInt8) : MsgState :=
  ([.invalid, .publishQos0, .publishQos1, .waitForPuback, .publishQos2, .waitForPubrec,
    .resendPubrel, .waitForPubrel, .resendPubcomp, .waitForPubcomp, .sendPubrec, .queued,
    .storage] : List MsgState).getD b.toNat .invalid

/-- The levels by number; the broker writes no other numbers. -/
def qosOf (b : UInt8) : Qos := if b = 0 then .q0 else if b = 1 then .q1 else .q2

/-- A string that was read, as a member of a context. -/
def restoredString (s : Option Bytes) : Option CString := s.map fun text => ⟨text, cstr []⟩

/-! ## Chunks -/

def persistFindOrAddContext (clientId : Bytes) (lastMid : UInt16) (b : State) : CtxId × State :=
  let (c, b) :=
    match b.contextsById.get clientId with
    | some c => (c, b)
    | none =>
      (b.nextContext, { b with
        contexts := b.contexts.set b.nextContext
          { Context.init b.db.config none with id := some clientId, cleanStart := false }
        contextsById := b.contextsById.set clientId b.nextContext
        nextContext := b.nextContext + 1 })
  (c, if lastMid ≠ 0 then b.modifyClient c fun ctx => { ctx with lastMid } else b)

/-- `db__message_store` with an id from the file, for a source with this id. -/
def messageStoreAs (storeId : StoreId) (sourceId : Option Bytes) (msg : NewMsg)
    (messageExpiryInterval : Nat) (db : MosquittoDb) : MsgStore × MosquittoDb :=
  let source := { Context.init db.config none with id := sourceId }
  let r := messageStore (some source) msg messageExpiryInterval db
  if storeId = 0 then r
  else
    let stored := { r.1 with addr := storeId }
    (stored, { db with msgStore := db.msgStore.set storeId ⟨stored, 0, []⟩ })

/-- The expiry interval of a stored message by `time(NULL)`: `none` if it has expired. -/
def expiryInterval (expiryTime : Int64) (db : MosquittoDb) : Option Nat × MosquittoDb :=
  if expiryTime > 0 then
    let r := db.read
    let left := expiryTime.toInt - r.1.wall
    (if left < 0 ∨ left > 4294967295 then none else some left.toNat, r.2)
  else (some 0, db)

def restoreMsgStore (listeners : Listeners) (chunk : PMsgStore (Option Bytes)) (r : Restoring) :
    Restoring :=
  let b := r.world.broker
  match expiryInterval chunk.F.expiryTime b.db with
  | (none, db) => { r with world := { r.world with broker := { b with db } } }
  | (some interval, db) =>
    let msg : NewMsg :=
      { sourceMid := chunk.F.sourceMid, topic := chunk.topic.getD []
        payload := chunk.payload.getD [], properties := chunk.properties, qos := qosOf chunk.F.qos
        retain := chunk.F.retain ≠ 0 }
    let (stored, db) := messageStoreAs chunk.F.storeId.toNat chunk.sourceId msg interval db
    let listener := if chunk.F.sourcePort ≠ 0 then
      listeners.ports.find? (· = chunk.F.sourcePort) else none
    let origin : Login := ⟨restoredString chunk.sourceUsername, listener⟩
    { world := { r.world with broker := { b with db }
                              origins := Function.update r.world.origins stored.addr origin }
      load := r.load.set (UInt64.ofNat stored.addr) stored }

/-- The list and the totals of a message that is restored. -/
def placeRestored (cmsg : ClientMsg) (md : MsgData) : MsgData :=
  let md :=
    if cmsg.state = .queued ∨ (cmsg.qos ≠ .q0 ∧ md.inflightQuota = 0) then
      { md with queued := md.queued ++ [cmsg] }
    else if cmsg.qos ≠ .q0 ∧ md.inflightQuota > 0 then
      { md with inflight := md.inflight ++ [cmsg], inflightQuota := md.inflightQuota - 1 }
    else { md with inflight := md.inflight ++ [cmsg] }
  md.count cmsg cmsg.qos

def persistClientMsgRestore (chunk : PClientMsg (Option Bytes)) (r : Restoring) : Restoring :=
  match r.load.get chunk.F.storeId, chunk.clientId with
  | some store, some clientId =>
    let (c, b) := persistFindOrAddContext clientId 0 r.world.broker
    let direction := if chunk.F.direction = 1 then .mdOut else .mdIn
    let cmsg : ClientMsg :=
      { addr := b.db.nextMsg, store, properties := chunk.properties, timestamp := 0
        mid := chunk.F.mid, qos := qosOf chunk.F.qos
        retain := (chunk.F.retainDup &&& 0xF0) >>> 4 ≠ 0, direction, state := stateOf chunk.F.state
        dup := chunk.F.retainDup &&& 0x0F ≠ 0, storageTime := 0 }
    let db := { b.db.msgStoreRefInc store.addr with nextMsg := b.db.nextMsg + 1 }
    let b := { b with db }
    let b := b.modifyClient c fun ctx =>
      ctx.setMsgs direction (placeRestored cmsg (ctx.msgs direction))
    { r with world := { r.world with broker := b } }
  | _, _ => r

def restoreClient (listeners : Listeners) (chunk : PClient (Option Bytes)) (r : Restoring) :
    Restoring :=
  match chunk.clientId with
  | none => r
  | some clientId =>
    let (c, b) := persistFindOrAddContext clientId chunk.F.lastMid r.world.broker
    let b := b.modifyClient c fun ctx => { ctx with
      sessionExpiryTime := chunk.F.sessionExpiryTime.toInt
      sessionExpiryInterval := chunk.F.sessionExpiryInterval.toNat }
    let login := r.world.logins c
    let username := login.username.or (restoredString chunk.username)
    let listener := if listeners.perListenerSettings ∧ chunk.F.listenerPort > 0 then
      login.listener.or (listeners.ports.find? (· = chunk.F.listenerPort)) else login.listener
    { r with world := { r.world with
        broker := b, logins := Function.update r.world.logins c ⟨username, listener⟩ } }

def persistRestoreSub (chunk : PSub (Option Bytes)) (r : Restoring) : Except Halt Restoring :=
  match chunk.clientId, chunk.topic with
  | some clientId, some sub =>
    let (c, b) := persistFindOrAddContext clientId 0 r.world.broker
    let protocol := ((b.contexts.get c).map (·.protocol)).getD .invalid
    let (rc, st) := subAdd b.ids c protocol sub (qosOf chunk.F.qos) chunk.F.identifier.toNat
      chunk.F.options ⟨b.subs.tree, b.subs.subs c⟩
    if rc ≠ Rc.success then .error (.code rc)
    else
      .ok { r with world := { r.world with broker := { b with
        subs := ⟨st.tree, Function.update b.subs.subs c st.subs⟩ } } }
  | _, _ => .error .abort

def restoreRetain (chunk : PfRetain) (r : Restoring) : Except Halt Restoring :=
  match r.load.get chunk.storeId with
  | none => .ok r
  | some store =>
    match subTopicTokenise store.topic with
    | .error _ => .error (.code 1)
    | .ok (splitTopics, _) =>
      .ok { r with world := { r.world with
        broker := retainStore store splitTopics r.world.broker } }

/-- The case of the configuration in `persist__restore`. -/
def restoreCfg (chunk : PfCfg) (r : Restoring) : Except Halt Restoring :=
  if chunk.dbidSize ≠ 8 then .error (.code 1)
  else
    let b := r.world.broker
    .ok { r with world := { r.world with
      broker := { b with db := { b.db with lastDbId := chunk.lastDbId.toNat } } } }

/-! ## The loop -/

section Loop

variable (host : ByteOrder) (listeners : Listeners)

def readThen {α : Type} (read : FileReader α) (restore : α → Restoring → Except Halt Restoring)
    (s : Bytes) (r : Restoring) : Except Halt (Restoring × Bytes) :=
  match read s with
  | .error rc => .error (.code rc)
  | .ok (chunk, s) => do
    let r ← restore chunk r
    pure (r, s)

/-- The `switch` of `persist__restore`, on the file behind a header. -/
def restoreSwitch (dbVersion : Nat) (chunk length : UInt32) (s : Bytes) (r : Restoring) :
    Except Halt (Restoring × Bytes) :=
  if chunk = dbChunkCfg then readThen (persistChunkCfgReadV56 host) restoreCfg s r
  else if chunk = dbChunkMsgStore then
    readThen (persistChunkMsgStoreReadV56 host length)
      (fun c r => .ok (restoreMsgStore listeners c r)) s r
  else if chunk = dbChunkClientMsg then
    readThen (persistChunkClientMsgReadV56 host length)
      (fun c r => .ok (persistClientMsgRestore c r)) s r
  else if chunk = dbChunkRetain then readThen (persistChunkRetainReadV56 host) restoreRetain s r
  else if chunk = dbChunkSub then readThen (persistChunkSubReadV56 host) persistRestoreSub s r
  else if chunk = dbChunkClient then
    -- a client without an id is left out; only its struct was read
    match persistChunkClientReadV56 host dbVersion s with
    | .error rc =>
      if rc < 0 then .ok (r, s.drop (if dbVersion = 6 then 24 else 16)) else .error (.code rc)
    | .ok (c, s) => .ok (restoreClient listeners c r, s)
  else .ok (r, s.drop length.toNat)

/-- The `while` of `persist__restore`. Every header is eight bytes of the file. -/
def restoreLoop (dbVersion : Nat) : Nat → Bytes → Restoring → Except Halt Restoring
  | 0, _, r => .ok r
  | fuel + 1, s, r =>
    match persistChunkHeaderReadV56 host s with
    | .error _ => .ok r
    | .ok ((chunk, length), s) => do
      let (r, s) ← restoreSwitch host listeners dbVersion chunk length s r
      restoreLoop dbVersion fuel s r

/-- The head of the file: `magic`, the unused checksum and the version. -/
def readHead : FileReader (Bytes × UInt32) := do
  let header ← items 1 15
  let _ ← fread32 host
  let version ← fread32 host
  pure (header, htonl host version)

def persistRestore (file : Bytes) (world : World) : Except Halt World :=
  if file = [] then .ok world
  else
    match readHead host file with
    | .error rc => .error (.code rc)
    | .ok ((header, version), s) =>
      if header ≠ magic then .error (.code 1)
      else if version ≠ 6 ∧ version ≠ 5 then .error (.code 1)
      else do
        let r ← restoreLoop host listeners version.toNat file.length s ⟨world, ∅⟩
        pure r.world

/-! ## A file of chunks -/

def restoreChunk : Chunk → Restoring → Except Halt Restoring
  | .cfg chunk, r => restoreCfg chunk r
  | .msgStore chunk, r => .ok (restoreMsgStore listeners chunk.loaded r)
  | .client chunk, r => .ok (restoreClient listeners chunk.loaded r)
  | .clientMsg chunk, r => .ok (persistClientMsgRestore chunk.loaded r)
  | .sub chunk, r => persistRestoreSub chunk.loaded r
  | .retain chunk, r => restoreRetain chunk r

def Chunk.Readable : Chunk → Prop
  | .msgStore chunk =>
    PublishProperties chunk.properties ∧ chunk.F.payloadlen ≤ mqttMaxPayload
  | .client chunk => chunk.F.idLen ≠ 0
  | .clientMsg chunk => PublishProperties chunk.properties
  | _ => True

variable {host listeners}

theorem length_magic : magic.length = 15 := by decide

theorem restoreLoop_nil (version fuel : Nat) (r : Restoring) :
    restoreLoop host listeners version fuel [] r = .ok r := by
  cases fuel with
  | zero => rfl
  | succ fuel =>
    have hnil : persistChunkHeaderReadV56 host [] = .error 1 := rfl
    rw [restoreLoop, hnil]

theorem ReadBack.length_pos {α : Type} {bytes : Bytes} {chunk : UInt32}
    {read : UInt32 → FileReader α} {a : α} (hrb : ReadBack host bytes chunk read a) :
    0 < bytes.length := by
  obtain ⟨length, body, -, hread⟩ := hrb
  by_contra hz
  obtain rfl : bytes = [] := List.length_eq_zero_iff.mp (by omega)
  have hhead := (hread []).1
  cases hhead

theorem restoreLoop_readBack {α : Type} {bytes : Bytes} {chunk : UInt32}
    {read : UInt32 → FileReader α} {a : α} (hrb : ReadBack host bytes chunk read a)
    {restore : Restoring → Except Halt Restoring}
    (hswitch : ∀ length s s' r, read length s = .ok (a, s') →
      restoreSwitch host listeners 6 chunk length s r = restore r >>= fun r => pure (r, s'))
    (fuel : Nat) (rest : Bytes) (r : Restoring) :
    restoreLoop host listeners 6 (fuel + 1) (bytes ++ rest) r =
      restore r >>= restoreLoop host listeners 6 fuel rest := by
  obtain ⟨length, body, -, hread⟩ := hrb
  obtain ⟨hhead, hbody⟩ := hread rest
  rw [restoreLoop, hhead]
  simp only
  rw [hswitch length _ _ r hbody, bind_assoc]
  rfl

/-- **What is written is restored.** -/
theorem Chunk.write_restored {chunk : Chunk} (hc : chunk.Readable) :
    ∃ bytes, chunk.write host = .ok bytes ∧ 0 < bytes.length ∧ ∀ fuel rest r,
      restoreLoop host listeners 6 (fuel + 1) (bytes ++ rest) r =
        restoreChunk listeners chunk r >>= restoreLoop host listeners 6 fuel rest := by
  cases chunk with
  | cfg chunk =>
    have hrb := @cfg_readBack host chunk
    refine ⟨_, rfl, hrb.length_pos, restoreLoop_readBack hrb fun length s s' r h => ?_⟩
    rw [restoreSwitch, if_pos rfl, readThen, h]
    rfl
  | msgStore chunk =>
    obtain ⟨bytes, hwrite, hrb⟩ := @msgStore_readBack host chunk hc.1 hc.2
    refine ⟨bytes, hwrite, hrb.length_pos, restoreLoop_readBack hrb fun length s s' r h => ?_⟩
    rw [restoreSwitch, if_neg (by decide), if_pos rfl, readThen, h]
    rfl
  | client chunk =>
    have hrb := @client_readBack host chunk hc
    refine ⟨_, rfl, hrb.length_pos, restoreLoop_readBack hrb fun length s s' r h => ?_⟩
    simp only [restoreSwitch, h]
    rfl
  | clientMsg chunk =>
    obtain ⟨bytes, hwrite, hrb⟩ := @clientMsg_readBack host chunk hc
    refine ⟨bytes, hwrite, hrb.length_pos, restoreLoop_readBack hrb fun length s s' r h => ?_⟩
    simp only [restoreSwitch, readThen, h]
    rfl
  | sub chunk =>
    have hrb := @sub_readBack host chunk
    refine ⟨_, rfl, hrb.length_pos, restoreLoop_readBack hrb fun length s s' r h => ?_⟩
    simp only [restoreSwitch, readThen, h]
    rfl
  | retain chunk =>
    have hrb := @retain_readBack host chunk
    refine ⟨_, rfl, hrb.length_pos, restoreLoop_readBack hrb fun length s s' r h => ?_⟩
    simp only [restoreSwitch, readThen, h]
    rfl

theorem restoreLoop_chunks {chunks : List Chunk} (hc : ∀ chunk ∈ chunks, chunk.Readable) :
    ∃ parts, chunks.mapM (Chunk.write host) = .ok parts ∧ chunks.length ≤ parts.flatten.length ∧
      ∀ fuel r, chunks.length ≤ fuel →
        restoreLoop host listeners 6 fuel parts.flatten r =
          chunks.foldlM (fun r chunk => restoreChunk listeners chunk r) r := by
  induction chunks with
  | nil => exact ⟨[], rfl, Nat.le_refl 0, fun fuel r _ => restoreLoop_nil 6 fuel r⟩
  | cons chunk chunks ih =>
    obtain ⟨hchunk, hchunks⟩ := List.forall_mem_cons.mp hc
    obtain ⟨parts, hparts, hlen, hloop⟩ := ih hchunks
    obtain ⟨bytes, hbytes, hpos, hround⟩ := @Chunk.write_restored host listeners chunk hchunk
    refine ⟨bytes :: parts, ?_, ?_, fun fuel r hfuel => ?_⟩
    · rw [List.mapM_cons, hbytes, hparts]
      rfl
    · rw [List.flatten_cons, List.length_append, List.length_cons]
      omega
    · rw [List.length_cons] at hfuel
      obtain ⟨fuel, rfl⟩ : ∃ n, fuel = n + 1 := ⟨fuel - 1, by omega⟩
      rw [List.flatten_cons, hround, List.foldlM_cons]
      congr 1
      funext r
      exact hloop fuel r (by omega)

/-- **A file of chunks is restored chunk by chunk.** -/
theorem persistRestore_backup {w : World} {shutdown : Bool}
    (hc : ∀ chunk ∈ backupChunks host w shutdown, chunk.Readable) :
    ∃ file, persistBackup host w shutdown = .ok file ∧ ∀ world,
      persistRestore host listeners file world =
        ((backupChunks host w shutdown).foldlM (fun r chunk => restoreChunk listeners chunk r)
          ⟨world, ∅⟩).map (·.world) := by
  obtain ⟨parts, hparts, hlen, hloop⟩ := @restoreLoop_chunks host listeners _ hc
  refine ⟨magic ++ mem32 host 0 ++ mem32 host (htonl host 6) ++ parts.flatten, ?_, fun world => ?_⟩
  · rw [persistBackup, hparts]
    rfl
  · have hhead : readHead host (magic ++ mem32 host 0 ++ mem32 host (htonl host 6) ++
        parts.flatten) = .ok ((magic, 6), parts.flatten) := by
      simp only [readHead, List.append_assoc, bind_of_ok (items_eq_ok.mpr ⟨rfl, length_magic⟩),
        fread32_bind, htonl_htonl]
      rfl
    have hne : magic ++ mem32 host 0 ++ mem32 host (htonl host 6) ++ parts.flatten ≠ [] := by
      simp [magic]
    rw [persistRestore, if_neg hne, hhead]
    simp only [ne_eq, not_true_eq_false, if_false, false_and]
    have hfuel : (backupChunks host w shutdown).length ≤
        (magic ++ mem32 host 0 ++ mem32 host (htonl host 6) ++ parts.flatten).length := by
      rw [List.length_append]
      omega
    have hsix : (6 : UInt32).toNat = 6 := rfl
    rw [hsix, hloop _ _ hfuel]
    rfl

end Loop

end AdaptiveMqtt.Persist
