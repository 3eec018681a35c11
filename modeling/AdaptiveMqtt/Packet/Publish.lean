import AdaptiveMqtt.Packet.PropertyList
import AdaptiveMqtt.Packet.Stream
import AdaptiveMqtt.Packet.Write

/-!
# PUBLISH from one side to the other

`send__real_publish` of `lib/send_publish.c` and `handle__publish` of `lib/handle_publish.c`,
with the queue of `Packet.Write` and the stream of `Packet.Stream` between them. The lengths
are computed before anything is written and the payload is added after; the receiver finds
the length of the payload by subtraction.

MQTT 3.1 and 3.1.1 have no properties and QoS 0 has no message id: what is given of them to
`send__real_publish` stays behind.
-/

namespace AdaptiveMqtt.Packet

open Lib Reader Writer MqttProp

/-! ## Sending -/

/-- The arguments of `send__real_publish`. `payload` is an address. -/
structure PublishArgs where
  mid : UInt16
  topic : Option Bytes
  payloadlen : Nat
  payload : Nat
  qos : Qos
  retain : Bool
  dup : Bool
  cmsgProps : List Property
  storeProps : List Property
  expiryInterval : UInt32
  deriving DecidableEq, Repr

def expiryProps (expiryInterval : UInt32) : List Property :=
  if expiryInterval > 0 then [⟨messageExpiryInterval, .int32 expiryInterval⟩] else []

def publishCommand (dup : Bool) (qos : Qos) (retain : Bool) : UInt8 :=
  (0x30 : UInt8) ||| (dup.toUInt8 &&& 1) <<< 3 ||| UInt8.ofNat qos.toNat <<< 1 ||| retain.toUInt8

/-- What `send__real_publish` writes behind the fixed header. The source drops the codes of
the writers; a property without a writer ends the packet here. -/
def writePublish (protocol : Protocol) (proplen : Nat) (args : PublishArgs) :
    PacketWriter Unit := do
  match args.topic with
  | some topic => packetWriteString topic (UInt16.ofNat topic.length)
  | none => packetWriteUint16 0
  if args.qos.toNat > 0 then packetWriteUint16 args.mid
  if protocol = .mqtt5 then
    packetWriteVarint proplen
    propertyWriteAll args.cmsgProps false
    propertyWriteAll args.storeProps false
    propertyWriteAll (expiryProps args.expiryInterval) false

def sendRealPublish (mosq : Sender) (args : PublishArgs) : Except Halt OutPacket :=
  let proplen := (propertyGetLengthAll args.cmsgProps + propertyGetLengthAll args.storeProps +
    propertyGetLengthAll (expiryProps args.expiryInterval)) % 2 ^ 32
  let varbytes := packetVarintBytes proplen
  -- Properties that are too big are not published.
  let kept := if mosq.protocol = .mqtt5 ∧ varbytes > 4
    then { args with cmsgProps := [], storeProps := [], expiryInterval := 0 } else args
  let packetlen := (2 + (args.topic.getD []).length + args.payloadlen +
    (if args.qos.toNat > 0 then 2 else 0) +
    (if mosq.protocol = .mqtt5 ∧ varbytes ≤ 4 then proplen + varbytes else 0)) % 2 ^ 32
  if packetCheckOversize mosq.maximumPacketSize packetlen ≠ Rc.success then
    .error (.code Rc.oversizePacket)
  else do
    let command := publishCommand args.dup args.qos args.retain
    let (packetLength, buffer) ← packetAlloc command packetlen args.payloadlen true
    let (_, buffer) ← writePublish mosq.protocol proplen kept buffer
    pure { command, mid := args.mid, packetLength, payloadLength := args.payloadlen, pubOrNot := true,
           payload := buffer.written, payloadStore := args.payload, pos := 0, toProcess := 0 }

/-! ## Receiving -/

/-- `struct mosquitto_message_all`, with its properties. -/
structure Message where
  topic : Bytes
  payload : Bytes
  qos : Nat
  mid : UInt16
  retain : Bool
  dup : Bool
  properties : List Property
  deriving DecidableEq, Repr

/-- `struct mosquitto` of the client library, as far as a PUBLISH uses it, with the messages
that were passed to the callbacks. -/
structure Library where
  sock : Bool
  state : ClientState
  protocol : Protocol
  inflightQuota : Nat
  onMessage : List Message
  msgsIn : List Message
  deriving DecidableEq, Repr

/-- The message id of a PUBLISH, if it has one. -/
def readMid (mosq : Library) (qos : Nat) : PacketReader UInt16 :=
  if qos > 0 then
    if mosq.protocol = .mqtt5 ∧ mosq.inflightQuota = 0 then fail Rc.protocol
    else do
      let mid ← packetReadUint16
      if mid = 0 then fail Rc.protocol else pure mid
  else pure 0

def readProperties (mosq : Library) : PacketReader (List Property) :=
  if mosq.protocol = .mqtt5 then propertyReadAll Cmd.publish else pure []

/-- The payload: `remaining_length - pos` bytes. -/
def readPayloadRest : PacketReader Bytes := fun s => packetReadBytes s.length s

def readPublish (mosq : Library) (header : UInt8) : PacketReader Message := do
  let qos := ((header &&& 0x06) >>> 1).toNat
  let topic ← packetReadString
  if topic.length = 0 then fail Rc.protocol
  else do
    let mid ← readMid mosq qos
    let properties ← readProperties mosq
    let payload ← readPayloadRest
    pure ⟨topic, payload, qos, mid, header &&& 0x01 ≠ 0, (header &&& 0x08) >>> 3 ≠ 0, properties⟩

def decrementReceiveQuota (mosq : Library) : Library :=
  { mosq with inflightQuota := mosq.inflightQuota - 1 }

section Library

-- `send__puback` and `send__pubrec`: they queue a packet and may write to the network.
variable (sendAck : Nat → UInt16 → Library → Rc × Library)

/-- The `switch` at the end of `handle__publish`. -/
def acceptMessage (message : Message) (mosq : Library) : Rc × Library :=
  match message.qos with
  | 0 => (Rc.success, { mosq with onMessage := mosq.onMessage ++ [message] })
  | 1 =>
    let r := sendAck Cmd.puback message.mid (decrementReceiveQuota mosq)
    (r.1, { r.2 with onMessage := r.2.onMessage ++ [message] })
  | 2 =>
    let r := sendAck Cmd.pubrec message.mid (decrementReceiveQuota mosq)
    (r.1, { r.2 with msgsIn := r.2.msgsIn ++ [message] })
  | _ => (Rc.protocol, mosq)

def handlePublish (packet : Incoming) (mosq : Library) : Rc × Library :=
  if mosq.state ≠ .active then (Rc.protocol, mosq)
  else
    match readPublish mosq packet.command packet.payload with
    | .error rc => (rc, mosq)
    | .ok (message, _) => acceptMessage sendAck message mosq

-- The other handlers of `handle__packet`.
variable (other : Incoming → Library → Rc × Library)

/-- The client library as a reader of packets. -/
def libraryHost : Host Library where
  withBroker := false
  hasSock mosq := mosq.sock
  state mosq := mosq.state
  bridge _ := false
  protocol mosq := mosq.protocol
  maxPacketSize := 0
  sendDisconnect _ mosq := mosq
  handlePacket packet mosq :=
    if packet.command &&& 0xF0 = 0x30 then handlePublish sendAck packet mosq else other packet mosq

end Library

/-! ## The header -/

def PublishArgs.props (args : PublishArgs) : List Property :=
  args.cmsgProps ++ args.storeProps ++ expiryProps args.expiryInterval

def publishHeader (protocol : Protocol) (topic : Bytes) (args : PublishArgs) : Bytes :=
  stringBytes topic ++ (if args.qos.toNat > 0 then uint16Bytes args.mid else []) ++
    if protocol = .mqtt5 then varintBytes (propertiesBytes args.props).length ++
      propertiesBytes args.props else []

/-- A PUBLISH that MQTT can carry: its topic, its message id, its properties and its length. -/
structure Publishable (protocol : Protocol) (topic : Bytes) (args : PublishArgs) : Prop where
  named : args.topic = some topic
  utf8 : Utf8 topic
  topicLength : 1 ≤ topic.length ∧ topic.length ≤ 65535
  mid : args.qos.toNat > 0 → args.mid ≠ 0
  valid : mosquittoPropertyCheckAll Cmd.publish args.props = Rc.success
  readable : ∀ p ∈ args.props, p.Readable
  small : (propertiesBytes args.props).length < 2 ^ 28
  length : (publishHeader protocol topic args).length + args.payloadlen ≤ 268435455

section Header

variable {protocol : Protocol} {topic : Bytes} {args : PublishArgs}

theorem writePublish_eq (ha : Publishable protocol topic args) :
    writePublish protocol (propertiesBytes args.props).length args =
      emit .abort (publishHeader protocol topic args) := by
  have hread : ∀ props, (∀ p ∈ props, p ∈ args.props) →
      propertyWriteAll props false = emit .abort (propertiesBytes props) :=
    fun props h => propertyWriteAll_bare fun p hp => ha.readable p (h p hp)
  have hprops : propertiesBytes args.props = propertiesBytes args.cmsgProps ++
      (propertiesBytes args.storeProps ++ propertiesBytes (expiryProps args.expiryInterval)) := by
    rw [PublishArgs.props, propertiesBytes_append, propertiesBytes_append, List.append_assoc]
  have hfive : (packetWriteVarint (propertiesBytes args.props).length >>= fun _ =>
      propertyWriteAll args.cmsgProps false >>= fun _ =>
      propertyWriteAll args.storeProps false >>= fun _ =>
      propertyWriteAll (expiryProps args.expiryInterval) false) =
      emit .abort (varintBytes (propertiesBytes args.props).length ++
        propertiesBytes args.props) := by
    rw [packetWriteVarint_eq ha.small, hread _ fun p hp => by simp [PublishArgs.props, hp],
      hread _ fun p hp => by simp [PublishArgs.props, hp],
      hread _ fun p hp => by simp [PublishArgs.props, hp], emit_append, emit_append, emit_append,
      ← hprops]
  unfold writePublish publishHeader
  simp only [ha.named]
  rw [packetWriteString_eq ha.topicLength.2, packetWriteUint16_eq, hfive]
  by_cases hq : args.qos.toNat > 0
  · simp only [if_pos hq]
    by_cases hp : protocol = .mqtt5
    · simp only [if_pos hp]
      rw [emit_append, emit_append, List.append_assoc]
    · simp only [if_neg hp]
      rw [← emit_nil, emit_append, emit_append, List.append_assoc]
  · simp only [if_neg hq]
    by_cases hp : protocol = .mqtt5
    · simp only [if_pos hp]
      rw [emit_append, List.append_nil]
    · simp only [if_neg hp]
      rw [← emit_nil, emit_append, List.append_nil, List.append_nil]

/-- The lengths are computed as the properties are written. -/
theorem proplen_eq (ha : Publishable protocol topic args) :
    (propertyGetLengthAll args.cmsgProps + propertyGetLengthAll args.storeProps +
      propertyGetLengthAll (expiryProps args.expiryInterval)) % 2 ^ 32 =
      (propertiesBytes args.props).length := by
  have hlen : ∀ props, (∀ p ∈ props, p ∈ args.props) →
      propertyGetLengthAll props = (propertiesBytes props).length % 2 ^ 32 :=
    fun props h => propertyGetLengthAll_eq fun p hp => ha.readable p (h p hp)
  have hsum : (propertiesBytes args.props).length = (propertiesBytes args.cmsgProps).length +
      (propertiesBytes args.storeProps).length +
      (propertiesBytes (expiryProps args.expiryInterval)).length := by
    rw [PublishArgs.props, propertiesBytes_append, propertiesBytes_append, List.length_append,
      List.length_append]
  have hsmall := ha.small
  rw [hlen _ fun p hp => by simp [PublishArgs.props, hp],
    hlen _ fun p hp => by simp [PublishArgs.props, hp],
    hlen _ fun p hp => by simp [PublishArgs.props, hp]]
  omega

theorem packetlen_eq (ha : Publishable protocol topic args) :
    (2 + topic.length + args.payloadlen + (if args.qos.toNat > 0 then 2 else 0) +
      (if protocol = .mqtt5 ∧ packetVarintBytes (propertiesBytes args.props).length ≤ 4 then
        (propertiesBytes args.props).length +
          packetVarintBytes (propertiesBytes args.props).length else 0)) % 2 ^ 32 =
      (publishHeader protocol topic args).length + args.payloadlen := by
  have hsmall := packetVarintBytes_small ha.small
  have hlen : (publishHeader protocol topic args).length = 2 + topic.length +
      (if args.qos.toNat > 0 then 2 else 0) + (if protocol = .mqtt5 then
        (propertiesBytes args.props).length +
          packetVarintBytes (propertiesBytes args.props).length else 0) := by
    have h16 : ∀ word, (uint16Bytes word).length = 2 := fun _ => rfl
    rw [publishHeader, List.length_append, List.length_append, length_stringBytes]
    congr 1
    · congr 1
      split
      · exact h16 _
      · rfl
    · split
      · rw [List.length_append, length_varintBytes ha.small, Nat.add_comm]
      · rfl
  have htotal := ha.length
  simp only [hsmall, and_true]
  rw [Nat.mod_eq_of_lt (by omega), hlen]
  omega

/-- **The header fills its room.** -/
theorem sendRealPublish_eq {mosq : Sender} (ha : Publishable mosq.protocol topic args)
    (hfit : packetCheckOversize mosq.maximumPacketSize
      ((publishHeader mosq.protocol topic args).length + args.payloadlen) = Rc.success) :
    ∃ packet, sendRealPublish mosq args = .ok packet ∧ packet.pubOrNot = true ∧
      packet.payloadStore = args.payload ∧ packet.payloadLength = args.payloadlen ∧
      packet.payload = publishCommand args.dup args.qos args.retain ::
        (varintBytes ((publishHeader mosq.protocol topic args).length + args.payloadlen) ++
          publishHeader mosq.protocol topic args) ∧
      packet.packetLength = packet.payload.length + args.payloadlen := by
  have hlen := ha.length
  obtain ⟨remaining, hrem⟩ : ∃ n, (publishHeader mosq.protocol topic args).length +
    args.payloadlen = n := ⟨_, rfl⟩
  obtain ⟨buffer, halloc, hwritten, hsize⟩ := packetAlloc_eq
    (publishCommand args.dup args.qos args.retain) (show remaining < 2 ^ 28 by omega)
    (show args.payloadlen ≤ remaining by omega) (show true = false → _ from fun h => nomatch h)
  have hroom : buffer.written.length + (publishHeader mosq.protocol topic args).length ≤
      buffer.size := by
    rw [hwritten, hsize, List.length_cons]
    omega
  have hkept : ¬ (mosq.protocol = .mqtt5 ∧
      packetVarintBytes (propertiesBytes args.props).length > 4) := by
    have := packetVarintBytes_small ha.small
    omega
  have hpl := packetlen_eq ha
  rw [hrem] at hpl
  refine ⟨{ command := publishCommand args.dup args.qos args.retain, mid := args.mid
            packetLength := remaining + 1 + (varintBytes remaining).length
            payloadLength := args.payloadlen, pubOrNot := true
            payload := buffer.written ++ publishHeader mosq.protocol topic args
            payloadStore := args.payload, pos := 0, toProcess := 0 }, ?_, rfl, rfl, rfl, ?_, ?_⟩
  · unfold sendRealPublish
    simp only [ha.named, Option.getD_some, proplen_eq ha, hpl, if_neg hkept]
    rw [← hrem, hfit, hrem, if_neg (by simp), halloc]
    show (writePublish mosq.protocol (propertiesBytes args.props).length args buffer >>= _) = _
    rw [writePublish_eq ha, emit_fits hroom]
    rfl
  · rw [hwritten, hrem]
    rfl
  · simp only [List.length_append, hwritten, List.length_cons]
    omega

end Header

/-! ## The round trip -/

def receivedMessage (protocol : Protocol) (topic payload : Bytes) (args : PublishArgs) : Message where
  topic := topic
  payload := payload
  qos := args.qos.toNat
  mid := if args.qos.toNat > 0 then args.mid else 0
  retain := args.retain
  dup := args.dup
  properties := if protocol = .mqtt5 then args.props else []

theorem publishCommand_bits (dup : Bool) (qos : Qos) (retain : Bool) :
    let header := publishCommand dup qos retain
    header ≠ 0 ∧ header &&& 0xF0 = 0x30 ∧ ((header &&& 0x06) >>> 1).toNat = qos.toNat ∧
      decide (header &&& 0x01 ≠ 0) = retain ∧ decide ((header &&& 0x08) >>> 3 ≠ 0) = dup := by
  cases dup <;> cases qos <;> cases retain <;> decide

section RoundTrip

variable {protocol : Protocol} {topic payload : Bytes} {args : PublishArgs}

theorem readMid_eq (ha : Publishable protocol topic args) {mosq : Library}
    (hquota : 0 < mosq.inflightQuota) (rest : Bytes) :
    readMid mosq args.qos.toNat ((if args.qos.toNat > 0 then uint16Bytes args.mid else []) ++ rest) =
      .ok (if args.qos.toNat > 0 then args.mid else 0, rest) := by
  unfold readMid
  by_cases hq : args.qos.toNat > 0
  · simp only [if_pos hq]
    rw [if_neg (by omega), bind_of_ok (packetReadUint16_eq_ok.mpr rfl), if_neg (ha.mid hq)]
    rfl
  · simp only [if_neg hq]
    rfl

theorem readProperties_eq (ha : Publishable protocol topic args) {mosq : Library}
    (hp : mosq.protocol = protocol) (rest : Bytes) :
    readProperties mosq ((if protocol = .mqtt5 then varintBytes (propertiesBytes args.props).length ++
      propertiesBytes args.props else []) ++ rest) =
      .ok (if protocol = .mqtt5 then args.props else [], rest) := by
  unfold readProperties
  rw [hp]
  by_cases h5 : protocol = .mqtt5
  · simp only [if_pos h5]
    exact (propertyReadAll_eq_ok (.inr ha.small)).mpr ⟨ha.readable, ha.small, ha.valid, rfl⟩
  · simp only [if_neg h5]
    rfl

/-- The receiver reads the header and takes the rest for the payload. -/
theorem readPublish_eq (ha : Publishable protocol topic args) {mosq : Library}
    (hp : mosq.protocol = protocol) (hquota : 0 < mosq.inflightQuota) :
    readPublish mosq (publishCommand args.dup args.qos args.retain)
      (publishHeader protocol topic args ++ payload) =
      .ok (receivedMessage protocol topic payload args, []) := by
  obtain ⟨-, -, hqos, hretain, hdup⟩ := publishCommand_bits args.dup args.qos args.retain
  have htopic : topic.length ≠ 0 := by
    have := ha.topicLength
    omega
  have hpayload : readPayloadRest payload = .ok (payload, []) :=
    items_eq_ok.mpr ⟨(List.append_nil payload).symm, rfl⟩
  unfold readPublish publishHeader
  simp only [hqos, hretain, hdup]
  rw [List.append_assoc, List.append_assoc, bind_of_ok (packetReadString_eq_ok.mpr
    ⟨⟨ha.topicLength.2, ha.utf8⟩, rfl⟩), if_neg htopic, bind_of_ok (readMid_eq ha hquota _),
    bind_of_ok (readProperties_eq ha hp _), bind_of_ok hpayload]
  rfl

/-- However the network takes it, the packet goes out as these bytes behind what waits. -/
def Sends (mem : Memory) (mosq : Sender) (packet : OutPacket) (bytes : Bytes) : Prop :=
  ∀ (calls : List Memory) (net : List WriteEvent),
    (∀ mem' ∈ calls, ∀ p ∈ (packetQueue mosq packet).packets, Keeps mem mem' p) →
    let mosq' := (packetWrites calls (packetQueue mosq packet) net).1
    mosq'.sent ++ unsent mem mosq' = mosq.sent ++ unsent mem mosq ++ bytes ∧
    (mosq'.packets = [] → mosq'.sent = mosq.sent ++ unsent mem mosq ++ bytes) ∧
    (mosq.sock = true → mosq.state ≠ .connectPending →
      (unsent mem mosq ++ bytes).length ≤ takings net → agains net < calls.length →
      mosq'.packets = [])

/-- However the network delivers the bytes, a client that waits for a packet, is active and
has quota left gets the message. -/
def Receives (protocol : Protocol) (bytes : Bytes) (message : Message) : Prop :=
  ∀ sendAck other (conn : Conn Library) (net : List NetEvent) (n : Nat),
    conn.inPacket = packetCleanup → conn.mosq.sock = true → conn.mosq.state = .active →
    conn.mosq.protocol = protocol → 0 < conn.mosq.inflightQuota →
    delivered net = bytes → scriptSize net < n →
    (packetReads (libraryHost sendAck other) n conn net).2.mosq =
      (acceptMessage sendAck message conn.mosq).2

theorem packets_packetQueue (mosq : Sender) (packet : OutPacket) :
    (packetQueue mosq packet).packets =
      mosq.packets ++ [{ packet with pos := 0, toProcess := packet.packetLength }] := by
  simp only [packetQueue, Sender.packets, List.append_assoc]

theorem sends_of_ready {mem : Memory} {mosq : Sender} {packet : OutPacket} {bytes : Bytes}
    (hqueue : ∀ p ∈ mosq.packets, p.Ready)
    (hr : OutPacket.Ready { packet with pos := 0, toProcess := packet.packetLength })
    (himage : image mem { packet with pos := 0, toProcess := packet.packetLength } = bytes) :
    Sends mem mosq packet bytes := by
  intro calls net hk mosq'
  have hready : ∀ p ∈ (packetQueue mosq packet).packets, p.Ready := by
    intro p hp
    rw [packets_packetQueue] at hp
    rcases List.mem_append.mp hp with hp | hp
    · exact hqueue p hp
    · rw [List.mem_singleton.mp hp]
      exact hr
  have hunsent : unsent mem (packetQueue mosq packet) = unsent mem mosq ++ bytes := by
    rw [unsent, packets_packetQueue, List.flatMap_append, List.flatMap_singleton, unsentOf, himage,
      List.drop_zero]
    rfl
  have hsent : mosq'.sent ++ unsent mem mosq' = mosq.sent ++ unsent mem mosq ++ bytes := by
    rw [List.append_assoc, ← hunsent]
    exact packetWrites_sent hready hk
  refine ⟨hsent, fun hnil => ?_, fun hsock hstate htake hcalls => ?_⟩
  · have hnone : unsent mem mosq' = [] := by rw [unsent, hnil, List.flatMap_nil]
    rw [← hsent, hnone, List.append_nil]
  · exact packetWrites_done calls hready hk hsock hstate (by rw [hunsent]; exact htake) hcalls

def publishBytes (protocol : Protocol) (topic payload : Bytes) (args : PublishArgs) : Bytes :=
  publishCommand args.dup args.qos args.retain ::
    (varintBytes ((publishHeader protocol topic args).length + args.payloadlen) ++
      (publishHeader protocol topic args ++ payload))

theorem receives_publishBytes (ha : Publishable protocol topic args)
    (hpayload : payload.length = args.payloadlen) :
    Receives protocol (publishBytes protocol topic payload args)
      (receivedMessage protocol topic payload args) := by
  intro sendAck other conn net n hidle hsock hstate hproto hquota hnet hn
  obtain ⟨hne, hcmd, -⟩ := publishCommand_bits args.dup args.qos args.retain
  have hlen : (publishHeader protocol topic args ++ payload).length =
      (publishHeader protocol topic args).length + args.payloadlen := by
    rw [List.length_append, hpayload]
  have htotal := ha.length
  have hlive : Live (libraryHost sendAck other) conn := by
    refine ⟨hsock, ?_⟩
    show conn.mosq.state ≠ _
    rw [hstate]
    decide
  rw [publishBytes, ← hlen] at hnet
  rw [packetReads_packet rfl hlive hidle hne (by omega) hnet hn]
  show (if _ then _ else _ : Rc × Library).2 = _
  rw [if_pos hcmd, handlePublish, if_neg (by simpa using hstate), readPublish_eq ha hproto hquota]

theorem sends_publishBytes {mosq : Sender} (ha : Publishable mosq.protocol topic args)
    (hfit : packetCheckOversize mosq.maximumPacketSize
      ((publishHeader mosq.protocol topic args).length + args.payloadlen) = Rc.success)
    (hqueue : ∀ p ∈ mosq.packets, p.Ready) {mem : Memory}
    (hmem : copy mem args.payload args.payloadlen = payload) :
    ∃ packet, sendRealPublish mosq args = .ok packet ∧
      packet.payload.length = packet.packetLength - packet.payloadLength ∧
      Sends mem mosq packet (publishBytes mosq.protocol topic payload args) := by
  obtain ⟨packet, hsend, hpub, hstore, hlen, hheader, htotal⟩ := sendRealPublish_eq ha hfit
  refine ⟨packet, hsend, by omega, sends_of_ready hqueue ⟨Nat.zero_add _, ?_, ?_⟩ ?_⟩
  · exact fun _ => ⟨by simp only; omega, by simp only; omega⟩
  · exact fun h => absurd (hpub.symm.trans h) (by decide)
  · have htake : packet.packetLength - args.payloadlen = packet.payload.length := by omega
    have hpub' : OutPacket.pubOrNot { packet with pos := 0, toProcess := packet.packetLength } =
      true := hpub
    rw [image, attachPayload_publish hpub']
    simp only [hstore, hlen, hmem, htake, List.take_length]
    rw [hheader, publishBytes, List.cons_append, List.append_assoc]

/-- **PUBLISH round trip.** The header fills its room. However the packet is sent and
delivered, the client gets the message: with the properties under MQTT 5, with the message
id from QoS 1 on. -/
theorem publish_roundtrip {mosq : Sender} (ha : Publishable mosq.protocol topic args)
    (hfit : packetCheckOversize mosq.maximumPacketSize
      ((publishHeader mosq.protocol topic args).length + args.payloadlen) = Rc.success)
    (hqueue : ∀ p ∈ mosq.packets, p.Ready) {mem : Memory}
    (hmem : copy mem args.payload args.payloadlen = payload) :
    ∃ packet bytes, sendRealPublish mosq args = .ok packet ∧
      packet.payload.length = packet.packetLength - packet.payloadLength ∧
      Sends mem mosq packet bytes ∧
      Receives mosq.protocol bytes (receivedMessage mosq.protocol topic payload args) := by
  obtain ⟨packet, hsend, hfill, hsends⟩ := sends_publishBytes ha hfit hqueue hmem
  have hpayload : payload.length = args.payloadlen := by rw [← hmem, length_copy]
  exact ⟨packet, _, hsend, hfill, hsends, receives_publishBytes ha hpayload⟩

end RoundTrip

/-- A QoS 1 message with a user property, its payload at address 0. -/
def PublishArgs.greeting : PublishArgs where
  mid := 7
  topic := some (ascii "t")
  payloadlen := 2
  payload := 0
  qos := .q1
  retain := false
  dup := true
  cmsgProps := []
  storeProps := [⟨userProperty, .stringPair (ascii "a") (ascii "b")⟩]
  expiryInterval := 60

def Sender.idle (protocol : Protocol) : Sender := ⟨true, .active, protocol, 0, none, [], []⟩

theorem publishable_greeting (protocol : Protocol) :
    Publishable protocol (ascii "t") PublishArgs.greeting where
  named := rfl
  utf8 := by decide
  topicLength := by decide
  mid := by decide
  valid := by decide
  readable := by decide
  small := by decide
  length := by
    cases protocol <;> decide

theorem publish_roundtrip_greeting : ∃ packet bytes,
    sendRealPublish (Sender.idle .mqtt5) PublishArgs.greeting = .ok packet ∧
    packet.payload.length = packet.packetLength - packet.payloadLength ∧
    Sends (fun _ => 120) (Sender.idle .mqtt5) packet bytes ∧
    Receives .mqtt5 bytes
      (receivedMessage .mqtt5 (ascii "t") (ascii "xx") PublishArgs.greeting) := by
  refine publish_roundtrip (publishable_greeting .mqtt5) ?_ (fun p hp => ?_) ?_
  · decide
  · cases hp
  · decide

/-- A new client of the library that has nothing else to do gets one message from the bytes. -/
theorem onMessage_of_receives {protocol : Protocol} {bytes : Bytes} {message message' : Message}
    (h : Receives protocol bytes message) (h' : Receives protocol bytes message') :
    let client : Library := ⟨true, .active, protocol, 20, [], []⟩
    (acceptMessage (fun _ _ mosq => (Rc.success, mosq)) message client).2.onMessage =
      (acceptMessage (fun _ _ mosq => (Rc.success, mosq)) message' client).2.onMessage := by
  intro client
  let other : Incoming → Library → Rc × Library := fun _ mosq => (Rc.success, mosq)
  have hnet := delivered_atOnce bytes
  have hquota : 0 < client.inflightQuota := Nat.succ_pos 19
  exact congrArg Library.onMessage
    ((h _ other (Conn.start client) _ _ rfl rfl rfl rfl hquota hnet
      (Nat.lt_succ_self _)).symm.trans
      (h' _ other (Conn.start client) _ _ rfl rfl rfl rfl hquota hnet (Nat.lt_succ_self _)))

/-- The same message with QoS 0, as a client of MQTT 5 sends it. -/
def PublishArgs.greeting0 : PublishArgs := { PublishArgs.greeting with qos := .q0, dup := false }

theorem publishable_greeting0 : Publishable .mqtt5 (ascii "t") PublishArgs.greeting0 where
  named := rfl
  utf8 := by decide
  topicLength := by decide
  mid := by decide
  valid := by decide
  readable := by decide
  small := by decide
  length := by decide

/-- A client of MQTT 3.1.1 gets no properties, and a message of QoS 0 arrives without its mid. -/
theorem publish_without_properties :
    (Publishable .mqtt311 (ascii "t") PublishArgs.greeting ∧
      ∃ packet bytes, sendRealPublish (Sender.idle .mqtt311) PublishArgs.greeting = .ok packet ∧
        Sends (fun _ => 120) (Sender.idle .mqtt311) packet bytes ∧
        ¬ Receives .mqtt311 bytes
          { receivedMessage .mqtt311 (ascii "t") (ascii "xx") PublishArgs.greeting with
            properties := PublishArgs.greeting.props }) ∧
    Publishable .mqtt5 (ascii "t") PublishArgs.greeting0 ∧
      ∃ packet bytes, sendRealPublish (Sender.idle .mqtt5) PublishArgs.greeting0 = .ok packet ∧
        Sends (fun _ => 120) (Sender.idle .mqtt5) packet bytes ∧
        ¬ Receives .mqtt5 bytes
          { receivedMessage .mqtt5 (ascii "t") (ascii "xx") PublishArgs.greeting0 with
            mid := PublishArgs.greeting0.mid } := by
  have hmem : copy (fun _ => 120) 0 2 = ascii "xx" := by decide
  have hqueue : ∀ protocol, ∀ p ∈ (Sender.idle protocol).packets, p.Ready := fun _ p hp => nomatch hp
  have hlen : (ascii "xx").length = 2 := by decide
  refine ⟨⟨publishable_greeting .mqtt311, ?_⟩, publishable_greeting0, ?_⟩
  · have ha := publishable_greeting .mqtt311
    obtain ⟨packet, hsend, -, hsends⟩ := sends_publishBytes ha (by decide) (hqueue .mqtt311) hmem
    refine ⟨packet, _, hsend, hsends, fun hall => ?_⟩
    exact absurd (onMessage_of_receives hall (receives_publishBytes ha hlen)) (by decide)
  · have ha := publishable_greeting0
    obtain ⟨packet, hsend, -, hsends⟩ := sends_publishBytes ha (by decide) (hqueue .mqtt5) hmem
    refine ⟨packet, _, hsend, hsends, fun hall => ?_⟩
    exact absurd (onMessage_of_receives hall (receives_publishBytes ha hlen)) (by decide)

end AdaptiveMqtt.Packet
