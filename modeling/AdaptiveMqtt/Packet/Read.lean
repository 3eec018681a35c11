import AdaptiveMqtt.Packet.Property

/-!
# Reading packets from the network

`packet__read` of `lib/packet_mosq.c`, in the broker and in the client library. The network
is a script of what `net__read` will find: bytes that have arrived together, or nothing yet
(`EAGAIN`). A call of `packet__read` works through the script until nothing is there or a
packet is complete.
-/

namespace AdaptiveMqtt.Packet

open Lib

/-! ## The network -/

/-- What `net__read` finds: bytes, at least one, or nothing yet. -/
inductive NetEvent where
  | bytes (first : UInt8) (more : Bytes)
  | again

/-- `net__read`: up to `count` bytes of what has arrived, or `EAGAIN`. -/
def netRead (count : Nat) : List NetEvent → Option Bytes × List NetEvent
  | [] => (none, [])
  | .again :: net => (none, net)
  | .bytes first more :: net =>
    match (first :: more).drop count with
    | [] => (some (first :: more), net)
    | b :: left => (some ((first :: more).take count), .bytes b left :: net)

def delivered : List NetEvent → Bytes
  | [] => []
  | .again :: net => delivered net
  | .bytes first more :: net => first :: more ++ delivered net

/-! ## The state of the reader -/

/-- `struct mosquitto__packet`, as far as an incoming packet uses it. `payload` holds the
bytes before `pos`. -/
structure InPacket where
  command : UInt8
  remainingCount : Int
  remainingMult : Nat
  remainingLength : Nat
  payload : Bytes
  toProcess : Nat
  deriving DecidableEq, Repr

def packetCleanup : InPacket := ⟨0, 0, 1, 0, [], 0⟩

/-- What `handle__packet` gets. -/
structure Incoming where
  command : UInt8
  remainingLength : Nat
  payload : Bytes
  deriving DecidableEq, Repr

/-- The rest of `struct mosquitto` and the functions `packet__read` calls on it. -/
structure Host (σ : Type) where
  withBroker : Bool
  hasSock : σ → Bool
  state : σ → ClientState
  bridge : σ → Bool
  protocol : σ → Protocol
  maxPacketSize : Nat
  sendDisconnect : UInt8 → σ → σ
  handlePacket : Incoming → σ → Rc × σ

/-- `struct mosquitto`, with the packets that were handled. -/
structure Conn (σ : Type) where
  mosq : σ
  inPacket : InPacket
  handled : List Incoming

section Read

variable {σ : Type} (h : Host σ)

/-- Clients must send CONNECT as their first command. -/
def commandRefused (mosq : σ) (byte : UInt8) : Bool :=
  h.withBroker && !h.bridge mosq && h.state mosq = .connected && byte &&& 0xF0 ≠ 0x10

/-- The `switch` over the command after the remaining length is read. -/
def lengthRefused (mosq : σ) (p : InPacket) : Bool :=
  let command := (p.command &&& 0xF0).toNat
  if command = Cmd.connect then p.remainingLength > 100000
  else if command = Cmd.puback ∨ command = Cmd.pubrec ∨ command = Cmd.pubrel ∨
      command = Cmd.pubcomp ∨ command = Cmd.unsuback then
    h.protocol mosq ≠ .mqtt5 ∧ p.remainingLength ≠ 2
  else if command = Cmd.pingreq ∨ command = Cmd.pingresp then p.remainingLength ≠ 0
  else if command = Cmd.disconnect then h.protocol mosq ≠ .mqtt5 ∧ p.remainingLength ≠ 0
  else false

abbrev Return (σ : Type) := Rc × Conn σ

def commandByte (conn : Conn σ) (byte : UInt8) : Except (Return σ) (Conn σ) :=
  let conn' := { conn with inPacket := { conn.inPacket with command := byte } }
  if commandRefused h conn.mosq byte then .error (Rc.protocol, conn') else .ok conn'

/-- The end of the remaining length: the checks of the broker, and the room for the payload. -/
def lengthDone (conn : Conn σ) : Except (Return σ) (Conn σ) :=
  let p := { conn.inPacket with remainingCount := -conn.inPacket.remainingCount }
  if h.withBroker ∧ lengthRefused h conn.mosq p then
    .error (Rc.malformedPacket, { conn with inPacket := p })
  else if h.withBroker ∧ h.maxPacketSize > 0 ∧ p.remainingLength + 1 > h.maxPacketSize then
    let mosq := if h.protocol conn.mosq = .mqtt5 then h.sendDisconnect 0x95 conn.mosq else conn.mosq
    .error (Rc.oversizePacket, { conn with mosq, inPacket := p })
  else .ok { conn with inPacket := { p with toProcess := p.remainingLength } }

def lengthByte (conn : Conn σ) (byte : UInt8) : Except (Return σ) (Bool × Conn σ) :=
  let p := { conn.inPacket with remainingCount := conn.inPacket.remainingCount - 1 }
  if p.remainingCount < -4 then .error (Rc.malformedPacket, { conn with inPacket := p })
  else .ok (byte &&& 128 = 0, { conn with inPacket :=
    { p with remainingLength := p.remainingLength + (byte &&& 127).toNat * p.remainingMult
             remainingMult := p.remainingMult * 128 } })

def payloadBytes (conn : Conn σ) (bytes : Bytes) : Conn σ :=
  { conn with inPacket :=
    { conn.inPacket with payload := conn.inPacket.payload ++ bytes
                         toProcess := conn.inPacket.toProcess - bytes.length } }

/-- All data for the packet is read: `handle__packet` and `packet__cleanup`. -/
def packetDone (conn : Conn σ) : Return σ :=
  let packet : Incoming :=
    ⟨conn.inPacket.command, conn.inPacket.remainingLength, conn.inPacket.payload⟩
  let r := h.handlePacket packet conn.mosq
  (r.1, ⟨r.2, packetCleanup, conn.handled ++ [packet]⟩)

/-! ## `packet__read` -/

/-- The first block of `packet__read`: a return, or what it goes on with. -/
def readCommand (conn : Conn σ) (net : List NetEvent) :
    Except (Return σ × List NetEvent) (Conn σ × List NetEvent) :=
  if conn.inPacket.command ≠ 0 then .ok (conn, net)
  else
    match netRead 1 net with
    | (none, net) => .error ((Rc.success, conn), net)
    | (some bytes, net) =>
      match commandByte h conn (bytes.headD 0) with
      | .error r => .error (r, net)
      | .ok conn => .ok (conn, net)

/-- The `do … while` of the second block. It ends after five bytes at most. -/
def readLengthLoop : Nat → Conn σ → List NetEvent →
    Except (Return σ × List NetEvent) (Conn σ × List NetEvent)
  | 0, conn, net => .error ((Rc.malformedPacket, conn), net)
  | left + 1, conn, net =>
    match netRead 1 net with
    | (none, net) => .error ((Rc.success, conn), net)
    | (some bytes, net) =>
      match lengthByte conn (bytes.headD 0) with
      | .error r => .error (r, net)
      | .ok (false, conn) => readLengthLoop left conn net
      | .ok (true, conn) =>
        match lengthDone h conn with
        | .error r => .error (r, net)
        | .ok conn => .ok (conn, net)

/-- The second block of `packet__read`. -/
def readLength (conn : Conn σ) (net : List NetEvent) :
    Except (Return σ × List NetEvent) (Conn σ × List NetEvent) :=
  if conn.inPacket.remainingCount ≤ 0 then readLengthLoop h 5 conn net else .ok (conn, net)

/-- The `while` over `to_process`. Every turn reads a byte at least. -/
def readPayload : Nat → Conn σ → List NetEvent →
    Except (Return σ × List NetEvent) (Conn σ × List NetEvent)
  | 0, conn, net => .ok (conn, net)
  | left + 1, conn, net =>
    if conn.inPacket.toProcess > 0 then
      match netRead conn.inPacket.toProcess net with
      | (none, net) => .error ((Rc.success, conn), net)
      | (some bytes, net) => readPayload left (payloadBytes conn bytes) net
    else .ok (conn, net)

def readBlocks (conn : Conn σ) (net : List NetEvent) :
    Except (Return σ × List NetEvent) (Conn σ × List NetEvent) := do
  let (conn, net) ← readCommand h conn net
  let (conn, net) ← readLength h conn net
  readPayload conn.inPacket.toProcess conn net

def packetRead (conn : Conn σ) (net : List NetEvent) : Return σ × List NetEvent :=
  if !h.hasSock conn.mosq then ((Rc.noConn, conn), net)
  else if h.state conn.mosq = .connectPending then ((Rc.success, conn), net)
  else
    match readBlocks h conn net with
    | .error r => r
    | .ok (conn, net) => (packetDone h conn, net)

/-- `n` calls of `packet__read`, up to the first error: the error, if any, and the client. -/
def packetReads : Nat → Conn σ → List NetEvent → Option Rc × Conn σ
  | 0, conn, _ => (none, conn)
  | n + 1, conn, net =>
    let r := packetRead h conn net
    if r.1.1 ≠ Rc.success then (some r.1.1, r.1.2) else packetReads n r.1.2 r.2

end Read

end AdaptiveMqtt.Packet
