import AdaptiveMqtt.Lib.Word
import AdaptiveMqtt.Packet.PropertyList
import AdaptiveMqtt.Packet.Write

/-!
# Chunks of the persistence file

The chunks of `persist.h`, their writers of `persist_write_v5.c` and their readers of
`persist_read_v5.c`, format version 6. A chunk is a header, a struct as it lies in memory, and
the strings, the payload and the properties it has the lengths of. The writers turn the
members round in place, so that a chunk is not the same after it was written.

The structs are written and read by the same host, whose byte order is a parameter. A
pointer is the memory from its address on: a writer copies as many bytes from there as the
struct says. A file is what is left to read of it, and nothing fails but its end.
-/

namespace AdaptiveMqtt.Persist

open Lib Reader Packet

abbrev mqttMaxPayload : UInt32 := 268435455

abbrev FileReader := Reader UInt8 Rc

section Host

variable (host : ByteOrder)

/-! ## Members of a struct -/

def htons (word : UInt16) : UInt16 := UInt16.ofNat (host.network 2 word.toNat)

def htonl (word : UInt32) : UInt32 := UInt32.ofNat (host.network 4 word.toNat)

def mem16 (word : UInt16) : Bytes := host.bytes 2 word.toNat

def mem32 (word : UInt32) : Bytes := host.bytes 4 word.toNat

def mem64 (word : UInt64) : Bytes := host.bytes 8 word.toNat

def fread8 : FileReader UInt8 := item 1

def fread16 : FileReader UInt16 := do
  let word ← word 1 host 2
  pure (UInt16.ofNat word)

def fread32 : FileReader UInt32 := do
  let word ← word 1 host 4
  pure (UInt32.ofNat word)

def fread64 : FileReader UInt64 := do
  let word ← word 1 host 8
  pure (UInt64.ofNat word)

/-! ## The structs -/

structure PfHeader where
  chunk : UInt32
  length : UInt32
  deriving DecidableEq, Repr

structure PfCfg where
  lastDbId : UInt64
  shutdown : UInt8
  dbidSize : UInt8
  padding : UInt16
  padding' : UInt32
  deriving DecidableEq, Repr

structure PfClient where
  sessionExpiryTime : Int64
  sessionExpiryInterval : UInt32
  lastMid : UInt16
  idLen : UInt16
  listenerPort : UInt16
  usernameLen : UInt16
  padding : UInt32
  deriving DecidableEq, Repr

structure PfClientMsg where
  storeId : UInt64
  mid : UInt16
  idLen : UInt16
  qos : UInt8
  state : UInt8
  retainDup : UInt8
  direction : UInt8
  deriving DecidableEq, Repr

structure PfMsgStore where
  storeId : UInt64
  expiryTime : Int64
  payloadlen : UInt32
  sourceMid : UInt16
  sourceIdLen : UInt16
  sourceUsernameLen : UInt16
  topicLen : UInt16
  sourcePort : UInt16
  qos : UInt8
  retain : UInt8
  deriving DecidableEq, Repr

structure PfSub where
  identifier : UInt32
  idLen : UInt16
  topicLen : UInt16
  qos : UInt8
  options : UInt8
  padding : UInt16
  deriving DecidableEq, Repr

structure PfRetain where
  storeId : UInt64
  deriving DecidableEq, Repr

/-- `struct P_client`. A string is a pointer for the writer and what it points to for the
reader. -/
structure PClient (S : Type) where
  F : PfClient
  clientId : S
  username : S

structure PClientMsg (S : Type) where
  F : PfClientMsg
  clientId : S
  properties : List Property

/-- `struct P_msg_store`, with the members of `source` that are in the file. -/
structure PMsgStore (S : Type) where
  F : PfMsgStore
  payload : S
  sourceId : S
  sourceUsername : S
  topic : S
  properties : List Property

structure PSub (S : Type) where
  F : PfSub
  clientId : S
  topic : S

/-! ## Structs in memory -/

def PfHeader.memory (F : PfHeader) : Bytes := mem32 host F.chunk ++ mem32 host F.length

def PfCfg.memory (F : PfCfg) : Bytes :=
  mem64 host F.lastDbId ++ [F.shutdown] ++ [F.dbidSize] ++ mem16 host F.padding ++
    mem32 host F.padding'

def PfClient.memory (F : PfClient) : Bytes :=
  mem64 host F.sessionExpiryTime.toUInt64 ++ mem32 host F.sessionExpiryInterval ++
    mem16 host F.lastMid ++ mem16 host F.idLen ++ mem16 host F.listenerPort ++
    mem16 host F.usernameLen ++ mem32 host F.padding

def PfClientMsg.memory (F : PfClientMsg) : Bytes :=
  mem64 host F.storeId ++ mem16 host F.mid ++ mem16 host F.idLen ++ [F.qos] ++ [F.state] ++
    [F.retainDup] ++ [F.direction]

def PfMsgStore.memory (F : PfMsgStore) : Bytes :=
  mem64 host F.storeId ++ mem64 host F.expiryTime.toUInt64 ++ mem32 host F.payloadlen ++
    mem16 host F.sourceMid ++ mem16 host F.sourceIdLen ++ mem16 host F.sourceUsernameLen ++
    mem16 host F.topicLen ++ mem16 host F.sourcePort ++ [F.qos] ++ [F.retain]

def PfSub.memory (F : PfSub) : Bytes :=
  mem32 host F.identifier ++ mem16 host F.idLen ++ mem16 host F.topicLen ++ [F.qos] ++
    [F.options] ++ mem16 host F.padding

def PfRetain.memory (F : PfRetain) : Bytes := mem64 host F.storeId

-- `fread` fills a struct from its first byte on, and the file ends before the struct or not.

def PfHeader.fread : FileReader PfHeader := do
  let chunk ← fread32 host
  let length ← fread32 host
  pure { chunk, length }

def PfCfg.fread : FileReader PfCfg := do
  let lastDbId ← fread64 host
  let shutdown ← fread8
  let dbidSize ← fread8
  let padding ← fread16 host
  let padding' ← fread32 host
  pure { lastDbId, shutdown, dbidSize, padding, padding' }

def PfClient.fread : FileReader PfClient := do
  let sessionExpiryTime ← fread64 host
  let sessionExpiryInterval ← fread32 host
  let lastMid ← fread16 host
  let idLen ← fread16 host
  let listenerPort ← fread16 host
  let usernameLen ← fread16 host
  let padding ← fread32 host
  pure { sessionExpiryTime := sessionExpiryTime.toInt64, sessionExpiryInterval, lastMid, idLen,
         listenerPort, usernameLen, padding }

/-- The struct of version 5, in the first bytes of a `struct PF_client` of zeros. -/
def PfClient.freadV5 : FileReader PfClient := do
  let sessionExpiryTime ← fread64 host
  let sessionExpiryInterval ← fread32 host
  let lastMid ← fread16 host
  let idLen ← fread16 host
  pure { sessionExpiryTime := sessionExpiryTime.toInt64, sessionExpiryInterval, lastMid, idLen,
         listenerPort := 0, usernameLen := 0, padding := 0 }

def PfClientMsg.fread : FileReader PfClientMsg := do
  let storeId ← fread64 host
  let mid ← fread16 host
  let idLen ← fread16 host
  let qos ← fread8
  let state ← fread8
  let retainDup ← fread8
  let direction ← fread8
  pure { storeId, mid, idLen, qos, state, retainDup, direction }

def PfMsgStore.fread : FileReader PfMsgStore := do
  let storeId ← fread64 host
  let expiryTime ← fread64 host
  let payloadlen ← fread32 host
  let sourceMid ← fread16 host
  let sourceIdLen ← fread16 host
  let sourceUsernameLen ← fread16 host
  let topicLen ← fread16 host
  let sourcePort ← fread16 host
  let qos ← fread8
  let retain ← fread8
  pure { storeId, expiryTime := expiryTime.toInt64, payloadlen, sourceMid, sourceIdLen,
         sourceUsernameLen, topicLen, sourcePort, qos, retain }

def PfSub.fread : FileReader PfSub := do
  let identifier ← fread32 host
  let idLen ← fread16 host
  let topicLen ← fread16 host
  let qos ← fread8
  let options ← fread8
  let padding ← fread16 host
  pure { identifier, idLen, topicLen, qos, options, padding }

def PfRetain.fread : FileReader PfRetain := do
  let storeId ← fread64 host
  pure { storeId }

/-! ## Writing -/

abbrev dbChunkCfg : UInt32 := 1
abbrev dbChunkMsgStore : UInt32 := 2
abbrev dbChunkClientMsg : UInt32 := 3
abbrev dbChunkRetain : UInt32 := 4
abbrev dbChunkSub : UInt32 := 5
abbrev dbChunkClient : UInt32 := 6

def chunkHeader (chunk length : UInt32) : Bytes :=
  PfHeader.memory host ⟨htonl host chunk, htonl host length⟩

def persistChunkCfgWriteV6 (chunk : PfCfg) : Bytes :=
  chunkHeader host dbChunkCfg 16 ++ chunk.memory host

def persistChunkClientWriteV6 (chunk : PClient Memory) : PClient Memory × Bytes :=
  let idLen := chunk.F.idLen
  let usernameLen := chunk.F.usernameLen
  let F := { chunk.F with
    sessionExpiryInterval := htonl host chunk.F.sessionExpiryInterval
    lastMid := htons host chunk.F.lastMid
    idLen := htons host chunk.F.idLen
    usernameLen := htons host chunk.F.usernameLen
    listenerPort := htons host chunk.F.listenerPort }
  let length := 24 + idLen.toUInt32 + usernameLen.toUInt32
  ({ chunk with F },
    chunkHeader host dbChunkClient length ++ F.memory host ++
      copy chunk.clientId 0 idLen.toNat ++ copy chunk.username 0 usernameLen.toNat)

def propertyBlock (properties : List Property) (proplen : UInt32) : Except Halt Bytes :=
  if properties ≠ [] ∧ proplen > 0 then do
    let (_, packet) ← propertyWriteAll properties true (Sink.alloc UInt8 proplen.toNat)
    pure packet.written
  else pure []

def propertyBlockLength (properties : List Property) : UInt32 :=
  if properties ≠ [] then UInt32.ofNat (propertyGetRemainingLength properties) else 0

-- The callers of the other writers set every member anew before the next chunk.

def persistChunkClientMsgWriteV6 (chunk : PClientMsg Memory) : Except Halt Bytes := do
  let idLen := chunk.F.idLen
  let proplen := propertyBlockLength chunk.properties
  let F := { chunk.F with
    mid := htons host chunk.F.mid
    idLen := htons host chunk.F.idLen }
  let length := 16 + idLen.toUInt32 + proplen
  let block ← propertyBlock chunk.properties proplen
  pure (chunkHeader host dbChunkClientMsg length ++ F.memory host ++
    copy chunk.clientId 0 idLen.toNat ++ block)

def persistChunkMessageStoreWriteV6 (chunk : PMsgStore Memory) : Except Halt Bytes := do
  let payloadlen := chunk.F.payloadlen
  let sourceIdLen := chunk.F.sourceIdLen
  let sourceUsernameLen := chunk.F.sourceUsernameLen
  let topicLen := chunk.F.topicLen
  let proplen := propertyBlockLength chunk.properties
  let F := { chunk.F with
    payloadlen := htonl host chunk.F.payloadlen
    sourceMid := htons host chunk.F.sourceMid
    sourceIdLen := htons host chunk.F.sourceIdLen
    sourceUsernameLen := htons host chunk.F.sourceUsernameLen
    topicLen := htons host chunk.F.topicLen
    sourcePort := htons host chunk.F.sourcePort }
  let length := 32 + topicLen.toUInt32 + payloadlen + sourceIdLen.toUInt32 +
    sourceUsernameLen.toUInt32 + proplen
  let block ← propertyBlock chunk.properties proplen
  pure (chunkHeader host dbChunkMsgStore length ++ F.memory host ++
    copy chunk.sourceId 0 sourceIdLen.toNat ++
    copy chunk.sourceUsername 0 sourceUsernameLen.toNat ++
    copy chunk.topic 0 topicLen.toNat ++ copy chunk.payload 0 payloadlen.toNat ++ block)

def persistChunkRetainWriteV6 (chunk : PfRetain) : Bytes :=
  chunkHeader host dbChunkRetain 8 ++ chunk.memory host

def persistChunkSubWriteV6 (chunk : PSub Memory) : Bytes :=
  let idLen := chunk.F.idLen
  let topicLen := chunk.F.topicLen
  let F := { chunk.F with
    identifier := htonl host chunk.F.identifier
    idLen := htons host chunk.F.idLen
    topicLen := htons host chunk.F.topicLen }
  let length := 12 + idLen.toUInt32 + topicLen.toUInt32
  chunkHeader host dbChunkSub length ++ F.memory host ++
    copy chunk.clientId 0 idLen.toNat ++ copy chunk.topic 0 topicLen.toNat

/-! ## Reading -/

def persistReadStringLen (len : UInt16) : FileReader (Option Bytes) :=
  if len ≠ 0 then do
    let s ← items Rc.nomem len.toNat
    pure (some s)
  else pure none

/-- A string that is only read if it is not empty, into a chunk of zeros. -/
def readStringIf (len : UInt16) : FileReader (Option Bytes) :=
  if len ≠ 0 then persistReadStringLen len else pure none

def persistChunkHeaderReadV56 : FileReader (UInt32 × UInt32) := do
  let header ← PfHeader.fread host
  pure (htonl host header.chunk, htonl host header.length)

def persistChunkCfgReadV56 : FileReader PfCfg := PfCfg.fread host

/-- The struct of `persist__chunk_client_read_v56` by version. -/
def freadClient (dbVersion : Nat) : FileReader PfClient :=
  if dbVersion = 6 then do
    let F ← PfClient.fread host
    pure { F with
      usernameLen := htons host F.usernameLen
      listenerPort := htons host F.listenerPort }
  else if dbVersion = 5 then PfClient.freadV5 host
  else fail 1

def persistChunkClientReadV56 (dbVersion : Nat) : FileReader (PClient (Option Bytes)) := do
  let F ← freadClient host dbVersion
  let F := { F with
    sessionExpiryInterval := htonl host F.sessionExpiryInterval
    lastMid := htons host F.lastMid
    idLen := htons host F.idLen }
  let clientId ← persistReadStringLen F.idLen
  if clientId = none then fail (-1)
  else do
    let username ← readStringIf F.usernameLen
    pure { F, clientId, username }

/-- The property block at the end of a chunk: all that is left of its length. -/
def readPropertyBlock (length : UInt32) : FileReader (List Property) :=
  if length > 0 then do
    let payload ← items 1 length.toNat
    match propertyReadAll Cmd.publish payload with
    | .ok (properties, _) => pure properties
    | .error rc => fail rc
  else pure []

def persistChunkClientMsgReadV56 (length : UInt32) : FileReader (PClientMsg (Option Bytes)) := do
  let F ← PfClientMsg.fread host
  let F := { F with
    mid := htons host F.mid
    idLen := htons host F.idLen }
  let length := length - (16 + F.idLen.toUInt32)
  let clientId ← persistReadStringLen F.idLen
  let properties ← readPropertyBlock length
  pure { F, clientId, properties }

def readPayload (payloadlen : UInt32) : FileReader (Option Bytes) :=
  if payloadlen > 0 then do
    let payload ← items 1 payloadlen.toNat
    pure (some payload)
  else pure none

def persistChunkMsgStoreReadV56 (length : UInt32) : FileReader (PMsgStore (Option Bytes)) := do
  let F ← PfMsgStore.fread host
  let F := { F with payloadlen := htonl host F.payloadlen }
  if F.payloadlen > mqttMaxPayload then fail Rc.inval
  else do
    let F := { F with
      sourceMid := htons host F.sourceMid
      sourceIdLen := htons host F.sourceIdLen
      sourceUsernameLen := htons host F.sourceUsernameLen
      topicLen := htons host F.topicLen
      sourcePort := htons host F.sourcePort }
    let length := length - (32 + F.payloadlen + F.sourceIdLen.toUInt32 +
      F.sourceUsernameLen.toUInt32 + F.topicLen.toUInt32)
    let sourceId ← readStringIf F.sourceIdLen
    let sourceUsername ← readStringIf F.sourceUsernameLen
    let topic ← persistReadStringLen F.topicLen
    let payload ← readPayload F.payloadlen
    let properties ← readPropertyBlock length
    pure { F, payload, sourceId, sourceUsername, topic, properties }

def persistChunkRetainReadV56 : FileReader PfRetain := PfRetain.fread host

def persistChunkSubReadV56 : FileReader (PSub (Option Bytes)) := do
  let F ← PfSub.fread host
  let F := { F with
    identifier := htonl host F.identifier
    idLen := htons host F.idLen
    topicLen := htons host F.topicLen }
  let clientId ← persistReadStringLen F.idLen
  let topic ← persistReadStringLen F.topicLen
  pure { F, clientId, topic }

end Host

variable {host : ByteOrder} {rest : Bytes}

/-! ## Words and structs are read back -/

@[simp] theorem htons_htons (word : UInt16) : htons host (htons host word) = word := by
  have hlt : word.toNat < 256 ^ 2 := word.toNat_lt
  have hnet : host.network 2 word.toNat < 2 ^ 16 := ByteOrder.network_lt hlt
  apply UInt16.toNat_inj.mp
  rw [htons, htons, UInt16.toNat_ofNat', UInt16.toNat_ofNat', Nat.mod_eq_of_lt hnet,
    ByteOrder.network_network hlt]
  exact Nat.mod_eq_of_lt word.toNat_lt

@[simp] theorem htonl_htonl (word : UInt32) : htonl host (htonl host word) = word := by
  have hlt : word.toNat < 256 ^ 4 := word.toNat_lt
  have hnet : host.network 4 word.toNat < 2 ^ 32 := ByteOrder.network_lt hlt
  apply UInt32.toNat_inj.mp
  rw [htonl, htonl, UInt32.toNat_ofNat', UInt32.toNat_ofNat', Nat.mod_eq_of_lt hnet,
    ByteOrder.network_network hlt]
  exact Nat.mod_eq_of_lt word.toNat_lt

section Bind

variable {α : Type}

@[simp] theorem fread8_bind (b : UInt8) (f : UInt8 → FileReader α) :
    (fread8 >>= f) (b :: rest) = f b rest := bind_of_ok rfl

@[simp] theorem fread16_bind (word : UInt16) (f : UInt16 → FileReader α) :
    (fread16 host >>= f) (mem16 host word ++ rest) = f word rest := by
  refine bind_of_ok ?_
  rw [fread16, mem16, bind_of_ok (word_bytes word.toNat_lt rest), UInt16.ofNat_toNat]
  rfl

@[simp] theorem fread32_bind (word : UInt32) (f : UInt32 → FileReader α) :
    (fread32 host >>= f) (mem32 host word ++ rest) = f word rest := by
  refine bind_of_ok ?_
  rw [fread32, mem32, bind_of_ok (word_bytes word.toNat_lt rest), UInt32.ofNat_toNat]
  rfl

@[simp] theorem fread64_bind (word : UInt64) (f : UInt64 → FileReader α) :
    (fread64 host >>= f) (mem64 host word ++ rest) = f word rest := by
  refine bind_of_ok ?_
  rw [fread64, mem64, bind_of_ok (word_bytes word.toNat_lt rest), UInt64.ofNat_toNat]
  rfl

end Bind

theorem PfHeader.fread_memory (F : PfHeader) :
    PfHeader.fread host (F.memory host ++ rest) = .ok (F, rest) := by
  simp only [PfHeader.fread, PfHeader.memory, List.append_assoc, fread32_bind]
  rfl

theorem PfCfg.fread_memory (F : PfCfg) :
    PfCfg.fread host (F.memory host ++ rest) = .ok (F, rest) := by
  simp only [PfCfg.fread, PfCfg.memory, List.append_assoc, List.cons_append, List.nil_append,
    fread64_bind, fread32_bind, fread16_bind, fread8_bind]
  rfl

theorem PfClient.fread_memory (F : PfClient) :
    PfClient.fread host (F.memory host ++ rest) = .ok (F, rest) := by
  simp only [PfClient.fread, PfClient.memory, List.append_assoc, fread64_bind, fread32_bind,
    fread16_bind, Int64.toInt64_toUInt64]
  rfl

theorem PfClientMsg.fread_memory (F : PfClientMsg) :
    PfClientMsg.fread host (F.memory host ++ rest) = .ok (F, rest) := by
  simp only [PfClientMsg.fread, PfClientMsg.memory, List.append_assoc, List.cons_append,
    List.nil_append, fread64_bind, fread16_bind, fread8_bind]
  rfl

theorem PfMsgStore.fread_memory (F : PfMsgStore) :
    PfMsgStore.fread host (F.memory host ++ rest) = .ok (F, rest) := by
  simp only [PfMsgStore.fread, PfMsgStore.memory, List.append_assoc, List.cons_append,
    List.nil_append, fread64_bind, fread32_bind, fread16_bind, fread8_bind, Int64.toInt64_toUInt64]
  rfl

theorem PfSub.fread_memory (F : PfSub) :
    PfSub.fread host (F.memory host ++ rest) = .ok (F, rest) := by
  simp only [PfSub.fread, PfSub.memory, List.append_assoc, List.cons_append, List.nil_append,
    fread32_bind, fread16_bind, fread8_bind]
  rfl

theorem PfRetain.fread_memory (F : PfRetain) :
    PfRetain.fread host (F.memory host ++ rest) = .ok (F, rest) := by
  simp only [PfRetain.fread, PfRetain.memory, fread64_bind]
  rfl

/-! ## Sizes -/

@[simp] theorem length_mem16 (word : UInt16) : (mem16 host word).length = 2 :=
  host.length_bytes 2 word.toNat

@[simp] theorem length_mem32 (word : UInt32) : (mem32 host word).length = 4 :=
  host.length_bytes 4 word.toNat

@[simp] theorem length_mem64 (word : UInt64) : (mem64 host word).length = 8 :=
  host.length_bytes 8 word.toNat

@[simp] theorem PfCfg.length_memory (F : PfCfg) : (F.memory host).length = 16 := by
  simp [PfCfg.memory]

@[simp] theorem PfClient.length_memory (F : PfClient) : (F.memory host).length = 24 := by
  simp [PfClient.memory]

@[simp] theorem PfClientMsg.length_memory (F : PfClientMsg) : (F.memory host).length = 16 := by
  simp [PfClientMsg.memory]

@[simp] theorem PfMsgStore.length_memory (F : PfMsgStore) : (F.memory host).length = 32 := by
  simp [PfMsgStore.memory]

@[simp] theorem PfSub.length_memory (F : PfSub) : (F.memory host).length = 12 := by
  simp [PfSub.memory]

@[simp] theorem PfRetain.length_memory (F : PfRetain) : (F.memory host).length = 8 := by
  simp [PfRetain.memory]

/-! ## Chunks are read back -/

/-- The file with `bytes` in front has a chunk of this kind there, with a length that is the
number of bytes behind the header, and `read` is done with these when it returns `a`. -/
def ReadBack {α : Type} (host : ByteOrder) (bytes : Bytes) (chunk : UInt32)
    (read : UInt32 → FileReader α) (a : α) : Prop :=
  ∃ (length : UInt32) (body : Bytes), body.length = length.toNat ∧ ∀ rest,
    persistChunkHeaderReadV56 host (bytes ++ rest) = .ok ((chunk, length), body ++ rest) ∧
      read length (body ++ rest) = .ok (a, rest)

theorem persistChunkHeaderReadV56_chunkHeader (chunk length : UInt32) :
    persistChunkHeaderReadV56 host (chunkHeader host chunk length ++ rest) =
      .ok ((chunk, length), rest) := by
  rw [persistChunkHeaderReadV56, chunkHeader, bind_of_ok (PfHeader.fread_memory _), htonl_htonl,
    htonl_htonl]
  rfl

theorem readBack_of_body {α : Type} {chunk length : UInt32} {body : Bytes}
    {read : UInt32 → FileReader α} {a : α} (hlen : body.length = length.toNat)
    (hread : ∀ rest, read length (body ++ rest) = .ok (a, rest)) :
    ReadBack host (chunkHeader host chunk length ++ body) chunk read a := by
  refine ⟨length, body, hlen, fun rest => ⟨?_, hread rest⟩⟩
  rw [List.append_assoc]
  exact persistChunkHeaderReadV56_chunkHeader chunk length

/-- What a reader allocates for a pointer that was written. -/
def loaded (p : Memory) (len : Nat) : Option Bytes :=
  if len ≠ 0 then some (copy p 0 len) else none

theorem persistReadStringLen_copy (p : Memory) (len : UInt16) :
    persistReadStringLen len (copy p 0 len.toNat ++ rest) = .ok (loaded p len.toNat, rest) := by
  unfold persistReadStringLen loaded
  by_cases hz : len = 0
  · subst hz
    rfl
  · have hz' : len.toNat ≠ 0 := fun h => hz (UInt16.toNat_inj.mp h)
    rw [if_pos hz, if_pos hz', bind_of_ok (items_eq_ok.mpr ⟨rfl, length_copy p 0 len.toNat⟩)]
    rfl

theorem readStringIf_copy (p : Memory) (len : UInt16) :
    readStringIf len (copy p 0 len.toNat ++ rest) = .ok (loaded p len.toNat, rest) := by
  rw [← persistReadStringLen_copy p len, readStringIf]
  by_cases hz : len ≠ 0
  · rw [if_pos hz]
  · rw [if_neg hz, persistReadStringLen, if_neg hz]

theorem readPayload_copy (p : Memory) (payloadlen : UInt32) :
    readPayload payloadlen (copy p 0 payloadlen.toNat ++ rest) =
      .ok (loaded p payloadlen.toNat, rest) := by
  unfold readPayload loaded
  by_cases hz : payloadlen = 0
  · subst hz
    rfl
  · have hz' : payloadlen.toNat ≠ 0 := fun h => hz (UInt32.toNat_inj.mp h)
    rw [if_pos (UInt32.pos_iff_ne_zero.mpr hz), if_pos hz',
      bind_of_ok (items_eq_ok.mpr ⟨rfl, length_copy p 0 payloadlen.toNat⟩)]
    rfl

/-! ### The property block -/

structure PublishProperties (properties : List Property) : Prop where
  readable : ∀ p ∈ properties, p.Readable
  check : mosquittoPropertyCheckAll Cmd.publish properties = Rc.success
  length : (propertiesBytes properties).length < 2 ^ 28

def blockBytes (properties : List Property) : Bytes :=
  if properties ≠ [] then
    varintBytes (propertiesBytes properties).length ++ propertiesBytes properties
  else []

section Block

variable {properties : List Property}

theorem length_blockBytes (hp : PublishProperties properties) :
    (blockBytes properties).length ≤ 2 ^ 28 + 3 := by
  unfold blockBytes
  split
  · have hlen := hp.length
    have hvar := packetVarintBytes_small hlen
    rw [List.length_append, length_varintBytes hlen]
    omega
  · exact Nat.zero_le _

theorem propertyBlockLength_eq (hp : PublishProperties properties) :
    (propertyBlockLength properties).toNat = (blockBytes properties).length := by
  have hle := length_blockBytes hp
  unfold propertyBlockLength blockBytes at *
  split
  · rename_i hne
    rw [if_pos hne] at hle
    rw [propertyGetRemainingLength_eq hp.readable hp.length, UInt32.toNat_ofNat']
    omega
  · rfl

theorem propertyBlockLength_pos (hp : PublishProperties properties) (hne : properties ≠ []) :
    propertyBlockLength properties > 0 := by
  have hpos := List.length_pos_iff.mpr hne
  have hle := length_le_propertiesBytes properties
  apply UInt32.lt_iff_toNat_lt.mpr
  rw [propertyBlockLength_eq hp, blockBytes, if_pos hne, List.length_append, UInt32.toNat_zero]
  omega

theorem propertyBlock_eq (hp : PublishProperties properties) :
    propertyBlock properties (propertyBlockLength properties) = .ok (blockBytes properties) := by
  have hlen := propertyBlockLength_eq hp
  unfold propertyBlock
  by_cases hne : properties ≠ []
  · have hfit : (Sink.alloc UInt8 (propertyBlockLength properties).toNat).written.length +
        (varintBytes (propertiesBytes properties).length ++ propertiesBytes properties).length ≤
        (Sink.alloc UInt8 (propertyBlockLength properties).toNat).size := by
      rw [blockBytes, if_pos hne] at hlen
      rw [← hlen]
      exact Nat.le_of_eq (Nat.zero_add _)
    rw [if_pos ⟨hne, propertyBlockLength_pos hp hne⟩,
      propertyWriteAll_eq hp.readable hp.length, Writer.emit_fits hfit, blockBytes, if_pos hne]
    rfl
  · rw [if_neg fun h => hne h.1, blockBytes, if_neg hne]
    rfl

theorem readPropertyBlock_eq (hp : PublishProperties properties) :
    readPropertyBlock (propertyBlockLength properties) (blockBytes properties ++ rest) =
      .ok (properties, rest) := by
  have hlen := propertyBlockLength_eq hp
  unfold readPropertyBlock
  by_cases hne : properties ≠ []
  · have hread : propertyReadAll Cmd.publish (blockBytes properties) = .ok (properties, []) := by
      rw [blockBytes, if_pos hne]
      exact (propertyReadAll_eq_ok (.inr hp.length)).mpr
        ⟨hp.readable, hp.length, hp.check, (List.append_nil _).symm⟩
    rw [if_pos (propertyBlockLength_pos hp hne),
      bind_of_ok (items_eq_ok.mpr ⟨rfl, hlen.symm⟩), hread]
    rfl
  · obtain rfl := not_not.mp hne
    rfl

end Block

/-! ### The chunks -/

def PClient.loaded (chunk : PClient Memory) : PClient (Option Bytes) where
  F := chunk.F
  clientId := Persist.loaded chunk.clientId chunk.F.idLen.toNat
  username := Persist.loaded chunk.username chunk.F.usernameLen.toNat

def PClientMsg.loaded (chunk : PClientMsg Memory) : PClientMsg (Option Bytes) where
  F := chunk.F
  clientId := Persist.loaded chunk.clientId chunk.F.idLen.toNat
  properties := chunk.properties

def PMsgStore.loaded (chunk : PMsgStore Memory) : PMsgStore (Option Bytes) where
  F := chunk.F
  payload := Persist.loaded chunk.payload chunk.F.payloadlen.toNat
  sourceId := Persist.loaded chunk.sourceId chunk.F.sourceIdLen.toNat
  sourceUsername := Persist.loaded chunk.sourceUsername chunk.F.sourceUsernameLen.toNat
  topic := Persist.loaded chunk.topic chunk.F.topicLen.toNat
  properties := chunk.properties

def PSub.loaded (chunk : PSub Memory) : PSub (Option Bytes) where
  F := chunk.F
  clientId := Persist.loaded chunk.clientId chunk.F.idLen.toNat
  topic := Persist.loaded chunk.topic chunk.F.topicLen.toNat

theorem client_readBack {chunk : PClient Memory} (hid : chunk.F.idLen ≠ 0) :
    ReadBack host (persistChunkClientWriteV6 host chunk).2 dbChunkClient
      (fun _ => persistChunkClientReadV56 host 6) chunk.loaded := by
  have hidNat : chunk.F.idLen.toNat ≠ 0 := fun h => hid (UInt16.toNat_inj.mp h)
  have hsome : loaded chunk.clientId chunk.F.idLen.toNat ≠ none := by
    rw [loaded, if_pos hidNat]
    exact Option.some_ne_none _
  unfold persistChunkClientWriteV6
  simp only [List.append_assoc]
  refine readBack_of_body ?_ fun rest => ?_
  · have h₁ := chunk.F.idLen.toNat_lt
    have h₂ := chunk.F.usernameLen.toNat_lt
    simp only [List.length_append, PfClient.length_memory, length_copy, UInt32.toNat_add,
      UInt16.toNat_toUInt32, UInt32.toNat_ofNat]
    omega
  · unfold persistChunkClientReadV56 freadClient
    rw [if_pos rfl]
    simp only [List.append_assoc, bind_assoc, pure_bind, bind_of_ok (PfClient.fread_memory _),
      htons_htons, htonl_htonl, bind_of_ok (persistReadStringLen_copy _ _), if_neg hsome,
      bind_of_ok (readStringIf_copy _ _)]
    rfl

theorem clientMsg_readBack {chunk : PClientMsg Memory} (hp : PublishProperties chunk.properties) :
    ∃ bytes, persistChunkClientMsgWriteV6 host chunk = .ok bytes ∧
      ReadBack host bytes dbChunkClientMsg (persistChunkClientMsgReadV56 host) chunk.loaded := by
  refine ⟨_, by rw [persistChunkClientMsgWriteV6, propertyBlock_eq hp]; rfl, ?_⟩
  simp only [List.append_assoc]
  refine readBack_of_body ?_ fun rest => ?_
  · have h₁ := chunk.F.idLen.toNat_lt
    have h₂ := length_blockBytes hp
    simp only [List.length_append, PfClientMsg.length_memory, length_copy, UInt32.toNat_add,
      UInt16.toNat_toUInt32, UInt32.toNat_ofNat, propertyBlockLength_eq hp]
    omega
  · have hleft : 16 + chunk.F.idLen.toUInt32 + propertyBlockLength chunk.properties -
        (16 + chunk.F.idLen.toUInt32) = propertyBlockLength chunk.properties := by grind
    unfold persistChunkClientMsgReadV56
    simp only [List.append_assoc, bind_of_ok (PfClientMsg.fread_memory _), htons_htons,
      bind_of_ok (persistReadStringLen_copy _ _), hleft, bind_of_ok (readPropertyBlock_eq hp)]
    rfl

theorem msgStore_readBack {chunk : PMsgStore Memory} (hp : PublishProperties chunk.properties)
    (hpay : chunk.F.payloadlen ≤ mqttMaxPayload) :
    ∃ bytes, persistChunkMessageStoreWriteV6 host chunk = .ok bytes ∧
      ReadBack host bytes dbChunkMsgStore (persistChunkMsgStoreReadV56 host) chunk.loaded := by
  refine ⟨_, by rw [persistChunkMessageStoreWriteV6, propertyBlock_eq hp]; rfl, ?_⟩
  simp only [List.append_assoc]
  refine readBack_of_body ?_ fun rest => ?_
  · have h₁ := chunk.F.sourceIdLen.toNat_lt
    have h₂ := chunk.F.sourceUsernameLen.toNat_lt
    have h₃ := chunk.F.topicLen.toNat_lt
    have h₄ : chunk.F.payloadlen.toNat ≤ 268435455 := UInt32.le_iff_toNat_le.mp hpay
    have h₅ := length_blockBytes hp
    simp only [List.length_append, PfMsgStore.length_memory, length_copy, UInt32.toNat_add,
      UInt16.toNat_toUInt32, UInt32.toNat_ofNat, propertyBlockLength_eq hp]
    omega
  · have hleft : 32 + chunk.F.topicLen.toUInt32 + chunk.F.payloadlen +
        chunk.F.sourceIdLen.toUInt32 + chunk.F.sourceUsernameLen.toUInt32 +
        propertyBlockLength chunk.properties - (32 + chunk.F.payloadlen +
        chunk.F.sourceIdLen.toUInt32 + chunk.F.sourceUsernameLen.toUInt32 +
        chunk.F.topicLen.toUInt32) = propertyBlockLength chunk.properties := by grind
    have hmax : ¬ chunk.F.payloadlen > mqttMaxPayload := UInt32.not_lt.mpr hpay
    unfold persistChunkMsgStoreReadV56
    simp only [List.append_assoc, bind_of_ok (PfMsgStore.fread_memory _), htons_htons, htonl_htonl,
      if_neg hmax, bind_of_ok (readStringIf_copy _ _), bind_of_ok (persistReadStringLen_copy _ _),
      bind_of_ok (readPayload_copy _ _), hleft, bind_of_ok (readPropertyBlock_eq hp)]
    rfl

theorem cfg_readBack (chunk : PfCfg) :
    ReadBack host (persistChunkCfgWriteV6 host chunk) dbChunkCfg
      (fun _ => persistChunkCfgReadV56 host) chunk :=
  readBack_of_body chunk.length_memory fun _ => chunk.fread_memory

theorem retain_readBack (chunk : PfRetain) :
    ReadBack host (persistChunkRetainWriteV6 host chunk) dbChunkRetain
      (fun _ => persistChunkRetainReadV56 host) chunk :=
  readBack_of_body chunk.length_memory fun _ => chunk.fread_memory

theorem sub_readBack (chunk : PSub Memory) :
    ReadBack host (persistChunkSubWriteV6 host chunk) dbChunkSub
      (fun _ => persistChunkSubReadV56 host) chunk.loaded := by
  unfold persistChunkSubWriteV6
  simp only [List.append_assoc]
  refine readBack_of_body ?_ fun rest => ?_
  · have h₁ := chunk.F.idLen.toNat_lt
    have h₂ := chunk.F.topicLen.toNat_lt
    simp only [List.length_append, PfSub.length_memory, length_copy, UInt32.toNat_add,
      UInt16.toNat_toUInt32, UInt32.toNat_ofNat]
    omega
  · unfold persistChunkSubReadV56
    simp only [List.append_assoc, bind_of_ok (PfSub.fread_memory _), htons_htons, htonl_htonl,
      bind_of_ok (persistReadStringLen_copy _ _)]
    rfl

/-- **Every chunk is read back**, to the last byte that its header announces. -/
theorem chunk_roundtrip (host : ByteOrder) :
    (∀ chunk : PClient Memory, chunk.F.idLen ≠ 0 →
      ReadBack host (persistChunkClientWriteV6 host chunk).2 dbChunkClient
        (fun _ => persistChunkClientReadV56 host 6) chunk.loaded) ∧
    (∀ chunk : PClientMsg Memory, PublishProperties chunk.properties →
      ∃ bytes, persistChunkClientMsgWriteV6 host chunk = .ok bytes ∧
        ReadBack host bytes dbChunkClientMsg (persistChunkClientMsgReadV56 host) chunk.loaded) ∧
    (∀ chunk : PMsgStore Memory, PublishProperties chunk.properties →
      chunk.F.payloadlen ≤ mqttMaxPayload →
      ∃ bytes, persistChunkMessageStoreWriteV6 host chunk = .ok bytes ∧
        ReadBack host bytes dbChunkMsgStore (persistChunkMsgStoreReadV56 host) chunk.loaded) ∧
    (∀ chunk : PfRetain, ReadBack host (persistChunkRetainWriteV6 host chunk) dbChunkRetain
      (fun _ => persistChunkRetainReadV56 host) chunk) ∧
    ∀ chunk : PSub Memory, ReadBack host (persistChunkSubWriteV6 host chunk) dbChunkSub
      (fun _ => persistChunkSubReadV56 host) chunk.loaded :=
  ⟨fun _ => client_readBack, fun _ => clientMsg_readBack, fun _ => msgStore_readBack,
    retain_readBack, sub_readBack⟩

/-- A pointer to bytes, of which nobody reads more. -/
def cstr (text : Bytes) : Memory := fun i => text.getD i 0

/-- A client with a username, one of its messages and what that is a message of. -/
theorem chunk_roundtrip_client :
    let client : PClient Memory := ⟨⟨-1, 0, 7, 1, 1883, 2, 0⟩, cstr (ascii "c"), cstr (ascii "me")⟩
    let properties : List Property := [⟨MqttProp.subscriptionIdentifier, .varint 300⟩]
    let msg : PClientMsg Memory := ⟨⟨5, 7, 1, 1, 3, 0, 1⟩, cstr (ascii "c"), properties⟩
    let stored : PMsgStore Memory :=
      ⟨⟨5, 0, 2, 9, 1, 0, 3, 1883, 1, 0⟩, cstr (ascii "hi"), cstr (ascii "d"), cstr [],
        cstr (ascii "a/b"), []⟩
    ReadBack .little (persistChunkClientWriteV6 .little client).2 dbChunkClient
        (fun _ => persistChunkClientReadV56 .little 6) client.loaded ∧
      client.loaded.username = some (ascii "me") ∧
      (∃ bytes, persistChunkClientMsgWriteV6 .little msg = .ok bytes ∧
        ReadBack .little bytes dbChunkClientMsg (persistChunkClientMsgReadV56 .little)
          msg.loaded) ∧
      (∃ bytes, persistChunkMessageStoreWriteV6 .little stored = .ok bytes ∧
        ReadBack .little bytes dbChunkMsgStore (persistChunkMsgStoreReadV56 .little)
          stored.loaded) ∧
      stored.loaded.payload = some (ascii "hi") ∧ stored.loaded.sourceUsername = none :=
  ⟨(chunk_roundtrip .little).1 _ (by decide), by decide,
    (chunk_roundtrip .little).2.1 _ ⟨by decide, by decide, by decide⟩,
    (chunk_roundtrip .little).2.2.1 _ ⟨by decide, by decide, by decide⟩ (by decide),
    by decide, by decide⟩

end AdaptiveMqtt.Persist
