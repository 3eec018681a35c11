import AdaptiveMqtt.Broker.Session
import AdaptiveMqtt.Packet.PropertyList
import AdaptiveMqtt.Packet.Write

/-!
# CONNECT from the client library to the broker

`send__connect` of `lib/send_connect.c` as the client library builds it, and `handle__connect`
of `src/handle_connect.c` up to the end of the packet. Bit 0 of the connect flags, which MQTT
reserves, announces four bytes with `threshold_l` at the end.

A string of length zero is `NULL` for the broker; the flags tell it from no string. What is
read is a `ConnectPacket`, the packet that the broker's sessions begin with.
-/

namespace AdaptiveMqtt

abbrev Rc.notSupported : Rc := 10
abbrev Rc.auth : Rc := 11

namespace Packet

open Lib Reader Writer MqttProp Topic Db

/-! ## Sending -/

/-- `struct mosquitto_message_all` of a will in the library. -/
structure WillMsg where
  topic : Bytes
  payload : Bytes
  qos : Qos
  retain : Bool
  properties : List Property
  deriving DecidableEq, Repr

/-- `struct mosquitto` of the library, as far as `send__connect` uses it. -/
structure Client where
  protocol : Protocol
  id : Option Bytes
  username : Option Bytes
  password : Option Bytes
  will : Option WillMsg
  thresholdL : UInt32
  inflightMaximum : UInt16
  retainAvailable : Bool
  deriving DecidableEq, Repr

/-- `local_props`: the receive maximum, unless the caller gives one. -/
def localProps (mosq : Client) (properties : List Property) : List Property :=
  if properties.any (·.identifier = receiveMaximum) then []
  else [⟨receiveMaximum, .int16 mosq.inflightMaximum⟩]

def protocolName : Protocol → Bytes
  | .mqtt31 => ascii "MQIsdp"
  | _ => ascii "MQTT"

def protocolVersion : Protocol → UInt8
  | .mqtt31 => 3
  | .mqtt311 => 4
  | _ => 5

def connectFlags (clean : Bool) (will : Option (Qos × Bool)) (retainAvailable username password
    threshold : Bool) : UInt8 :=
  let byte := (clean.toUInt8 &&& 1) <<< 1
  let byte := match will with
    | none => byte
    | some (qos, retain) =>
      let byte := byte ||| ((UInt8.ofNat qos.toNat &&& 3) <<< 3 ||| (1 : UInt8) <<< 2)
      if retainAvailable then byte ||| (retain.toUInt8 &&& 1) <<< 5 else byte
  let byte := if username then byte ||| (1 : UInt8) <<< 7 else byte
  let byte := if password then byte ||| (1 : UInt8) <<< 6 else byte
  if threshold then byte ||| (1 : UInt8) <<< 0 else byte

/-- `proplen`, only computed for MQTT 5. -/
def connectProplen (mosq : Client) (properties : List Property) : Nat :=
  (propertyGetLengthAll properties + propertyGetLengthAll (localProps mosq properties)) % 2 ^ 32

/-- `headerlen`, none for a protocol that cannot be sent. -/
def connectHeaderlen (mosq : Client) (properties : List Property) : Option Nat :=
  match mosq.protocol with
  | .mqtt5 => some (10 + (connectProplen mosq properties +
      packetVarintBytes (connectProplen mosq properties)))
  | .mqtt311 => some 10
  | .mqtt31 => some 12
  | _ => none

def connectPayloadlen (mosq : Client) : Nat :=
  2 + (mosq.id.getD []).length +
  (match mosq.will with
    | none => 0
    | some w => 2 + w.topic.length + 2 + w.payload.length +
        (if mosq.protocol = .mqtt5 then propertyGetRemainingLength w.properties else 0)) +
  (match mosq.username with
    | none => 0
    | some username => 2 + username.length) +
  (match mosq.password with
    | none => 0
    | some password => 2 + password.length) +
  (if mosq.thresholdL > 0 then 4 else 0)

def writeConnectProps (mosq : Client) (properties : List Property) : PacketWriter Unit :=
  if mosq.protocol = .mqtt5 then do
    packetWriteVarint (connectProplen mosq properties)
    propertyWriteAll properties false
    propertyWriteAll (localProps mosq properties) false
  else pure ()

def writeClientId : Option Bytes → PacketWriter Unit
  | some clientid => packetWriteString clientid (UInt16.ofNat clientid.length)
  | none => packetWriteUint16 0

def writeWillProps (protocol : Protocol) (properties : List Property) : PacketWriter Unit :=
  if protocol = .mqtt5 then propertyWriteAll properties true else pure ()

def writeWill (protocol : Protocol) : Option WillMsg → PacketWriter Unit
  | none => pure ()
  | some w => do
    writeWillProps protocol w.properties
    packetWriteString w.topic (UInt16.ofNat w.topic.length)
    packetWriteString w.payload (UInt16.ofNat w.payload.length)

/-- The username and the password. -/
def writeCredential : Option Bytes → PacketWriter Unit
  | none => pure ()
  | some str => packetWriteString str (UInt16.ofNat str.length)

def writeThreshold (thresholdL : UInt32) : PacketWriter Unit :=
  if thresholdL > 0 then packetWriteUint32 thresholdL else pure ()

def Client.flags (mosq : Client) (clean : Bool) : UInt8 :=
  connectFlags clean (mosq.will.map fun w => (w.qos, w.retain)) mosq.retainAvailable
    mosq.username.isSome mosq.password.isSome (mosq.thresholdL > 0)

def sendConnect (mosq : Client) (keepalive : UInt16) (clean : Bool) (properties : List Property) :
    Except Halt (Sink UInt8) :=
  if mosq.protocol = .mqtt31 ∧ mosq.id = none then .error (.code Rc.protocol)
  else
    match connectHeaderlen mosq properties with
    | none => .error (.code Rc.inval)
    | some headerlen =>
      if (mosq.protocol = .mqtt31 ∨ mosq.protocol = .mqtt311) ∧ mosq.password ≠ none ∧
          mosq.username = none then .error (.code Rc.inval)
      else do
        let (_, buffer) ← packetAlloc 0x10 ((headerlen + connectPayloadlen mosq) % 2 ^ 32) 0 false
        let writer : PacketWriter Unit := do
          packetWriteString (protocolName mosq.protocol)
            (UInt16.ofNat (protocolName mosq.protocol).length)
          packetWriteByte (protocolVersion mosq.protocol)
          packetWriteByte (mosq.flags clean)
          packetWriteUint16 keepalive
          writeConnectProps mosq properties
          writeClientId mosq.id
          writeWill mosq.protocol mosq.will
          writeCredential mosq.username
          writeCredential mosq.password
          writeThreshold mosq.thresholdL
        let (_, buffer) ← writer buffer
        pure buffer

/-! ## Receiving -/

/-- The settings of the broker and the listener that `handle__connect` asks while it reads,
and the id it would generate. -/
structure ConnectPolicy where
  retainAvailable : Bool
  maxQos : Qos
  allowZeroLengthClientid : Bool
  clientIdGen : Bytes
  clientidPrefixes : Option Bytes
  mountPoint : Option Bytes
  messageSizeLimit : Nat
  deriving DecidableEq, Repr

/-- What `handle__connect` has read: the packet, the id as it was sent, and the credentials. -/
structure ParsedConnect where
  packet : ConnectPacket
  sentId : Bytes
  username : Option Bytes
  password : Option Bytes

/-- A reader whose errors are all `MOSQ_ERR_PROTOCOL`. -/
def orProtocol {α : Type} (r : PacketReader α) : PacketReader α := fun s =>
  match r s with
  | .error _ => .error Rc.protocol
  | .ok x => .ok x

/-- The protocol that a name and a version byte stand for, and whether it is a bridge. -/
def protocolOf (name : Bytes) (version : UInt8) : Option (Protocol × Bool) :=
  if name = ascii "MQIsdp" then
    if version &&& 0x7F = 3 then some (.mqtt31, version &&& 0x80 = 0x80) else none
  else if name = ascii "MQTT" then
    if version &&& 0x7F = 4 then some (.mqtt311, version &&& 0x80 = 0x80)
    else if version &&& 0x7F = 5 then some (.mqtt5, false)
    else none
  else none

/-- The protocol name, compared as a C string, and the version. -/
def readProtocol : PacketReader (Protocol × Bool × UInt8) := do
  let slen ← orProtocol packetReadUint16
  if slen ≠ 4 ∧ slen ≠ 6 then fail Rc.protocol
  else do
    let name ← orProtocol (packetReadBytes slen.toNat)
    let version ← orProtocol packetReadByte
    match protocolOf (name.takeWhile (· ≠ 0)) version with
    | none => fail Rc.protocol
    | some (protocol, isBridge) => pure (protocol, isBridge, version)

/-- The properties of a CONNECT; they are there if the version byte is that of MQTT 5. -/
def readConnectProps (version : UInt8) : PacketReader (List Property) :=
  if version = 5 then propertyReadAll Cmd.connect else pure []

def clientIdOf (policy : ConnectPolicy) (protocol : Protocol) (clean : Bool) (id : Bytes) :
    Except Rc Bytes :=
  let given : Except Rc Bytes :=
    if id.length = 0 then
      if protocol = .mqtt31 then .error Rc.protocol
      else if protocol = .mqtt311 ∧ clean = false ∨ policy.allowZeroLengthClientid = false then
        .error Rc.protocol
      else .ok policy.clientIdGen
    else .ok id
  match given with
  | .error rc => .error rc
  | .ok id => if policy.clientidPrefixes.all (·.isPrefixOf id) then .ok id else .error Rc.auth

def readClientId (policy : ConnectPolicy) (protocol : Protocol) (clean : Bool) :
    PacketReader (Bytes × Bytes) := do
  let id ← orProtocol packetReadString
  match clientIdOf policy protocol clean id with
  | .error rc => fail rc
  | .ok given => pure (id, given)

/-- `property__process_will`: the delay, the expiry and the properties of the message. -/
def processWill : List Property → Nat → Nat → List Property → Option (Nat × Nat × List Property)
  | [], delay, expiry, kept => some (delay, expiry, kept)
  | p :: props, delay, expiry, kept =>
    match p.identifier with
    | contentType | correlationData | payloadFormatIndicator | responseTopic | userProperty =>
      processWill props delay expiry (kept ++ [p])
    | willDelayInterval => processWill props p.value.i32.toNat expiry kept
    | messageExpiryInterval => processWill props delay p.value.i32.toNat kept
    | _ => none

def readWillProps (protocol : Protocol) : PacketReader (Nat × Nat × List Property) :=
  if protocol = .mqtt5 then do
    let properties ← propertyReadAll Cmd.will
    match processWill properties 0 0 [] with
    | none => fail Rc.protocol
    | some r => pure r
  else pure (0, 0, [])

def readWillPayload (policy : ConnectPolicy) : PacketReader Bytes := do
  let payloadlen ← packetReadUint16
  if policy.messageSizeLimit > 0 ∧ payloadlen.toNat > policy.messageSizeLimit then
    fail Rc.payloadSize
  else packetReadBytes payloadlen.toNat

/-- `will__read`: the will and its delay. -/
def willRead (policy : ConnectPolicy) (protocol : Protocol) (qos : Qos) (retain : Bool) :
    PacketReader (Will × Nat) := do
  let (delay, expiry, properties) ← readWillProps protocol
  let topic ← packetReadString
  if h : topic = [] then fail Rc.protocol
  else
    let mounted := policy.mountPoint.getD [] ++ topic
    have hne : mounted ≠ [] := fun hm => h (List.append_eq_nil_iff.mp hm).2
    if mosquittoPubTopicCheck mounted ≠ Rc.success then fail Rc.inval
    else do
      let payload ← readWillPayload policy
      pure (⟨mounted, hne, payload, qos, retain, expiry, properties⟩, delay)

def readWill (policy : ConnectPolicy) (protocol : Protocol) (will : Bool) (qos : Qos)
    (retain : Bool) : PacketReader (Option Will × Nat) :=
  if will then do
    let (w, delay) ← willRead policy protocol qos retain
    pure (some w, delay)
  else if (protocol = .mqtt311 ∨ protocol = .mqtt5) ∧ (qos ≠ .q0 ∨ retain = true) then
    fail Rc.protocol
  else pure (none, 0)

/-- What is left of a packet after a string or binary data that is too long. -/
def afterLength (s : Bytes) : Bytes := if s.length < 2 then s else s.drop 2

/-- What is left of a packet after `packet__read_string` fails. -/
def afterString (s : Bytes) : Bytes :=
  match packetReadBinary s with
  | .error _ => afterLength s
  | .ok (_, rest) => rest

/-- The username. MQTT 3.1 takes a bad one for none. -/
def readUsername (protocol : Protocol) (username password : Bool) : PacketReader (Option Bytes) :=
  if username then fun s =>
    match packetReadString s with
    | .ok (str, rest) => .ok (some str, rest)
    | .error _ => if protocol = .mqtt31 then .ok (none, afterString s) else .error Rc.protocol
  else if (protocol = .mqtt311 ∨ protocol = .mqtt31) ∧ password then fail Rc.protocol
  else pure none

/-- The password. MQTT 3.1 takes a bad one for none. -/
def readPassword (protocol : Protocol) (password : Bool) : PacketReader (Option Bytes) :=
  if password then fun s =>
    match packetReadBinary s with
    | .ok (str, rest) => .ok (some str, rest)
    | .error _ => if protocol = .mqtt31 then .ok (none, afterLength s) else .error Rc.protocol
  else pure none

def readThreshold (threshold : Bool) : PacketReader (Option UInt32) :=
  if threshold then do
    let thresholdL ← orProtocol packetReadUint32
    pure (some thresholdL)
  else pure none

/-- Surplus data at the end of a packet is an error. -/
def readEnd : PacketReader Unit := fun s => if s = [] then .ok ((), s) else .error Rc.protocol

/-- The QoS in two bits of the flags. -/
def willQosOf (flags : UInt8) : Option Qos :=
  match ((flags &&& 0x18) >>> 3).toNat with
  | 0 => some .q0
  | 1 => some .q1
  | 2 => some .q2
  | _ => none

/-- `handle__connect` of a new client, as far as it reads the packet. The CONNACKs that
answer some errors are not part of it. -/
def parseConnect (policy : ConnectPolicy) (command : UInt8) : PacketReader ParsedConnect :=
  if command ≠ 0x10 then fail Rc.malformedPacket
  else do
    let (protocol, isBridge, version) ← readProtocol
    let flags ← orProtocol packetReadByte
    let clean : Bool := (flags &&& 0x02) >>> 1 ≠ 0
    let will : Bool := flags &&& 0x04 ≠ 0
    let willRetain : Bool := flags &&& 0x20 = 0x20
    match willQosOf flags with
    | none => fail Rc.protocol
    | some willQos =>
      if will ∧ willRetain ∧ policy.retainAvailable = false then fail Rc.notSupported
      else do
        let keepalive ← orProtocol packetReadUint16
        let properties ← readConnectProps version
        if will ∧ willQos.toNat > policy.maxQos.toNat then fail Rc.notSupported
        else do
          let (sentId, clientId) ← readClientId policy protocol clean
          let (willStruct, delay) ← readWill policy protocol will willQos willRetain
          let username ← readUsername protocol (flags &&& 0x80 ≠ 0) (flags &&& 0x40 ≠ 0)
          let password ← readPassword protocol (flags &&& 0x40 ≠ 0)
          let thresholdL ← readThreshold (flags &&& 0x01 ≠ 0)
          readEnd
          pure
            { packet :=
                { clientId, protocol, isBridge, cleanStart := clean, keepalive := keepalive.toNat
                  properties, will := willStruct, willDelayInterval := delay, thresholdL }
              sentId, username, password }

/-! ## The bytes of a CONNECT -/

def connectProps (mosq : Client) (properties : List Property) : List Property :=
  properties ++ localProps mosq properties

/-- A property list with its length, if the protocol has properties. -/
def propsField (protocol : Protocol) (props : List Property) : Bytes :=
  if protocol = .mqtt5 then varintBytes (propertiesBytes props).length ++ propertiesBytes props
  else []

def willField (protocol : Protocol) : Option WillMsg → Bytes
  | none => []
  | some w => propsField protocol w.properties ++ (stringBytes w.topic ++ stringBytes w.payload)

def credentialField : Option Bytes → Bytes
  | none => []
  | some str => stringBytes str

def thresholdField (thresholdL : UInt32) : Bytes :=
  if thresholdL > 0 then uint32Bytes thresholdL else []

/-- What a CONNECT has behind the fixed header. -/
def connectBytes (mosq : Client) (keepalive : UInt16) (clean : Bool) (properties : List Property) :
    Bytes :=
  stringBytes (protocolName mosq.protocol) ++ ([protocolVersion mosq.protocol] ++
    ([mosq.flags clean] ++ (uint16Bytes keepalive ++
    (propsField mosq.protocol (connectProps mosq properties) ++ (stringBytes (mosq.id.getD []) ++
    (willField mosq.protocol mosq.will ++ (credentialField mosq.username ++
    (credentialField mosq.password ++ thresholdField mosq.thresholdL))))))))

structure WillMsg.Accepted (w : WillMsg) : Prop where
  utf8 : Utf8 w.topic
  topicLength : 1 ≤ w.topic.length ∧ w.topic.length ≤ 65535
  topic : mosquittoPubTopicCheck w.topic = Rc.success
  payload : w.payload.length ≤ 65535
  valid : mosquittoPropertyCheckAll Cmd.will w.properties = Rc.success
  readable : ∀ p ∈ w.properties, p.Readable

/-- A client whose CONNECT the broker should take. The library refuses properties for MQTT 3.1
and 3.1.1 and a password without a username for them. -/
structure Connectable (mosq : Client) (keepalive : UInt16) (clean : Bool)
    (properties : List Property) : Prop where
  protocol : mosq.protocol = .mqtt31 ∨ mosq.protocol = .mqtt311 ∨ mosq.protocol = .mqtt5
  id : Utf8 (mosq.id.getD []) ∧ (mosq.id.getD []).length ≤ 65535
  named : mosq.protocol = .mqtt31 → mosq.id.getD [] ≠ []
  username : ∀ username, mosq.username = some username → Utf8 username ∧ username.length ≤ 65535
  credentials : mosq.protocol ≠ .mqtt5 → mosq.username = none → mosq.password = none
  will : ∀ w, mosq.will = some w → w.Accepted
  retain : mosq.retainAvailable = true
  valid : mosq.protocol = .mqtt5 →
    mosquittoPropertyCheckAll Cmd.connect (connectProps mosq properties) = Rc.success
  readable : mosq.protocol = .mqtt5 → ∀ p ∈ connectProps mosq properties, p.Readable
  bare : mosq.protocol ≠ .mqtt5 →
    properties = [] ∧ ∀ w, mosq.will = some w → w.properties = []
  length : (connectBytes mosq keepalive clean properties).length ≤ 100000

section Write

variable {mosq : Client} {keepalive : UInt16} {clean : Bool} {properties : List Property}

theorem propsField_mqtt5 (props : List Property) : propsField .mqtt5 props =
    varintBytes (propertiesBytes props).length ++ propertiesBytes props := if_pos rfl

theorem propertiesBytes_le_connect (keepalive : UInt16) (clean : Bool)
    (properties : List Property) (h5 : mosq.protocol = .mqtt5) :
    (propertiesBytes (connectProps mosq properties)).length ≤
      (connectBytes mosq keepalive clean properties).length := by
  simp only [connectBytes, propsField, h5, if_true, List.length_append]
  omega

theorem willProps_le_connect (keepalive : UInt16) (clean : Bool) (properties : List Property)
    (h5 : mosq.protocol = .mqtt5) {w : WillMsg} (hw : mosq.will = some w) :
    (propertiesBytes w.properties).length ≤
      (connectBytes mosq keepalive clean properties).length := by
  simp only [connectBytes, willField, hw, propsField, h5, if_true, List.length_append]
  omega

theorem connectProplen_eq (hc : Connectable mosq keepalive clean properties)
    (h5 : mosq.protocol = .mqtt5) :
    connectProplen mosq properties = (propertiesBytes (connectProps mosq properties)).length := by
  have hlen : ∀ props, (∀ p ∈ props, p ∈ connectProps mosq properties) →
      propertyGetLengthAll props = (propertiesBytes props).length % 2 ^ 32 :=
    fun props h => propertyGetLengthAll_eq fun p hp => hc.readable h5 p (h p hp)
  have hle := propertiesBytes_le_connect keepalive clean properties h5
  have htotal := hc.length
  have hsum : (propertiesBytes (connectProps mosq properties)).length =
      (propertiesBytes properties).length +
        (propertiesBytes (localProps mosq properties)).length := by
    rw [connectProps, propertiesBytes, List.flatMap_append, List.length_append]
    rfl
  rw [connectProplen, hlen _ fun p hp => by simp [connectProps, hp],
    hlen _ fun p hp => by simp [connectProps, hp]]
  omega

theorem writeConnectProps_eq (hc : Connectable mosq keepalive clean properties) :
    writeConnectProps mosq properties =
      emit .abort (propsField mosq.protocol (connectProps mosq properties)) := by
  unfold writeConnectProps
  by_cases h5 : mosq.protocol = .mqtt5
  · have hle := propertiesBytes_le_connect keepalive clean properties h5
    have htotal := hc.length
    have hread : ∀ props, (∀ p ∈ props, p ∈ connectProps mosq properties) →
        propertyWriteAll props false = emit .abort (propertiesBytes props) :=
      fun props h => propertyWriteAll_bare fun p hp => hc.readable h5 p (h p hp)
    rw [if_pos h5, connectProplen_eq hc h5, packetWriteVarint_eq (by omega),
      hread _ fun p hp => by simp [connectProps, hp],
      hread _ fun p hp => by simp [connectProps, hp], emit_append, emit_append, h5,
      propsField_mqtt5, connectProps, propertiesBytes_append]
  · rw [if_neg h5, propsField, if_neg h5, emit_nil]

theorem writeClientId_eq (hc : Connectable mosq keepalive clean properties) :
    writeClientId mosq.id = emit .abort (stringBytes (mosq.id.getD [])) := by
  have hlen := hc.id.2
  cases hid : mosq.id with
  | none =>
    rw [writeClientId, packetWriteUint16_eq]
    rfl
  | some id =>
    rw [hid] at hlen
    exact packetWriteString_eq hlen

theorem writeWill_eq (hc : Connectable mosq keepalive clean properties) :
    writeWill mosq.protocol mosq.will = emit .abort (willField mosq.protocol mosq.will) := by
  cases hw : mosq.will with
  | none => exact emit_nil.symm
  | some w =>
    have ha := hc.will w hw
    have hprops : writeWillProps mosq.protocol w.properties =
        emit .abort (propsField mosq.protocol w.properties) := by
      unfold writeWillProps
      by_cases h5 : mosq.protocol = .mqtt5
      · have hle := willProps_le_connect keepalive clean properties h5 hw
        have htotal := hc.length
        rw [if_pos h5, propertyWriteAll_eq ha.readable (by omega), h5, propsField_mqtt5]
      · rw [if_neg h5, propsField, if_neg h5, emit_nil]
    rw [writeWill, hprops, packetWriteString_eq ha.topicLength.2, packetWriteString_eq ha.payload,
      emit_append, emit_append]
    rfl

theorem writeCredential_eq {str : Option Bytes} (h : ∀ s, str = some s → s.length ≤ 65535) :
    writeCredential str = emit .abort (credentialField str) := by
  cases str with
  | none => exact emit_nil.symm
  | some s => exact packetWriteString_eq (h s rfl)

theorem writeThreshold_eq (thresholdL : UInt32) :
    writeThreshold thresholdL = emit .abort (thresholdField thresholdL) := by
  unfold writeThreshold thresholdField
  split
  · exact packetWriteUint32_eq thresholdL
  · exact emit_nil.symm

theorem connectHeaderlen_eq (hc : Connectable mosq keepalive clean properties) :
    connectHeaderlen mosq properties = some ((stringBytes (protocolName mosq.protocol)).length + 4 +
      (propsField mosq.protocol (connectProps mosq properties)).length) := by
  unfold connectHeaderlen
  rcases hc.protocol with h | h | h
  · rw [h]
    rfl
  · rw [h]
    rfl
  · have hlen := connectProplen_eq hc h
    have hle := propertiesBytes_le_connect keepalive clean properties h
    have htotal := hc.length
    simp only [h]
    rw [hlen, propsField_mqtt5, List.length_append, length_varintBytes (by omega), Nat.add_comm
      (packetVarintBytes _)]
    rfl

theorem connectPayloadlen_eq (hc : Connectable mosq keepalive clean properties) :
    connectPayloadlen mosq = (stringBytes (mosq.id.getD [])).length +
      (willField mosq.protocol mosq.will).length + (credentialField mosq.username).length +
      (credentialField mosq.password).length + (thresholdField mosq.thresholdL).length := by
  have hcred : ∀ str : Option Bytes, (credentialField str).length =
      match str with
      | none => 0
      | some s => 2 + s.length := by
    intro str
    cases str with
    | none => rfl
    | some s => exact length_stringBytes s
  have hthreshold : (thresholdField mosq.thresholdL).length =
      if mosq.thresholdL > 0 then 4 else 0 := by
    unfold thresholdField
    split
    · rfl
    · rfl
  have hwill : (willField mosq.protocol mosq.will).length =
      match mosq.will with
      | none => 0
      | some w => 2 + w.topic.length + 2 + w.payload.length +
          (if mosq.protocol = .mqtt5 then propertyGetRemainingLength w.properties else 0) := by
    cases hw : mosq.will with
    | none => rfl
    | some w =>
      have ha := hc.will w hw
      rw [willField, List.length_append, List.length_append, length_stringBytes, length_stringBytes]
      by_cases h5 : mosq.protocol = .mqtt5
      · have hle := willProps_le_connect keepalive clean properties h5 hw
        have htotal := hc.length
        simp only [if_pos h5]
        rw [propertyGetRemainingLength_eq ha.readable (by omega), h5, propsField_mqtt5]
        omega
      · simp only [propsField, if_neg h5, List.length_nil]
        omega
  rw [connectPayloadlen, hcred, hcred, hthreshold, hwill, length_stringBytes]

theorem length_connectBytes (mosq : Client) (keepalive : UInt16) (clean : Bool)
    (properties : List Property) : (connectBytes mosq keepalive clean properties).length =
      (stringBytes (protocolName mosq.protocol)).length + 4 +
      (propsField mosq.protocol (connectProps mosq properties)).length +
      ((stringBytes (mosq.id.getD [])).length + (willField mosq.protocol mosq.will).length +
      (credentialField mosq.username).length + (credentialField mosq.password).length +
      (thresholdField mosq.thresholdL).length) := by
  simp only [connectBytes, List.length_append, List.length_singleton, length_uint16Bytes]
  omega

/-- **A CONNECT fills its packet** if the password has a length that can be sent. -/
theorem sendConnect_eq (hc : Connectable mosq keepalive clean properties)
    (hpassword : ∀ password, mosq.password = some password → password.length ≤ 65535) :
    ∃ buffer, sendConnect mosq keepalive clean properties = .ok buffer ∧
      buffer.written = 0x10 :: (varintBytes (connectBytes mosq keepalive clean properties).length ++
        connectBytes mosq keepalive clean properties) ∧
      buffer.size = buffer.written.length := by
  have htotal := hc.length
  have hlen := length_connectBytes mosq keepalive clean properties
  obtain ⟨remaining, hrem⟩ : ∃ n, (connectBytes mosq keepalive clean properties).length = n :=
    ⟨_, rfl⟩
  obtain ⟨buffer, halloc, hwritten, hsize⟩ := packetAlloc_eq 0x10
    (show remaining < 2 ^ 28 by omega) (Nat.zero_le remaining) (show false = false → 0 = 0 from
      fun _ => rfl)
  have hroom : buffer.written.length + (connectBytes mosq keepalive clean properties).length ≤
      buffer.size := by
    rw [hwritten, hsize, List.length_cons]
    omega
  have hid : ¬ (mosq.protocol = .mqtt31 ∧ mosq.id = none) :=
    fun h => hc.named h.1 (by rw [h.2]; rfl)
  have hcred : ¬ ((mosq.protocol = .mqtt31 ∨ mosq.protocol = .mqtt311) ∧ mosq.password ≠ none ∧
      mosq.username = none) := by
    rintro ⟨h3, hp, hu⟩
    refine hp (hc.credentials (fun h5 => ?_) hu)
    rcases h3 with h | h
    · rw [h] at h5
      cases h5
    · rw [h] at h5
      cases h5
  have hname : (protocolName mosq.protocol).length ≤ 65535 := by
    rcases hc.protocol with h | h | h <;> rw [h] <;> decide
  refine ⟨buffer.push _ hroom, ?_, ?_, ?_⟩
  · unfold sendConnect
    rw [if_neg hid, connectHeaderlen_eq hc]
    simp only
    rw [if_neg hcred, connectPayloadlen_eq hc, ← hlen, Nat.mod_eq_of_lt (by omega), hrem, halloc,
      packetWriteString_eq hname, packetWriteUint16_eq, writeConnectProps_eq hc,
      writeClientId_eq hc, writeWill_eq hc, writeCredential_eq fun s h => (hc.username s h).2,
      writeCredential_eq hpassword, writeThreshold_eq]
    unfold packetWriteByte
    simp only [emit_append]
    show (emit Halt.abort (connectBytes mosq keepalive clean properties) buffer >>= _) = _
    rw [emit_fits hroom]
    rfl
  · show buffer.written ++ _ = _
    rw [hwritten, hrem]
    rfl
  · show buffer.size = (buffer.written ++ _).length
    rw [hsize, hwritten, List.length_append, hrem, List.length_cons]
    omega

end Write

/-! ## Reading it back -/

/-- The value of an interval property, zero if there is none. -/
def intervalOf (identifier : Nat) (props : List Property) : Nat :=
  props.foldl (fun n p => if p.identifier = identifier then p.value.i32.toNat else n) 0

def keptProps (props : List Property) : List Property :=
  props.filter fun p => p.identifier ≠ willDelayInterval ∧ p.identifier ≠ messageExpiryInterval

theorem will_identifier {identifier : Nat}
    (h : mosquittoPropertyCheckCommand Cmd.will identifier = Rc.success) :
    identifier = contentType ∨ identifier = correlationData ∨
      identifier = payloadFormatIndicator ∨ identifier = responseTopic ∨
      identifier = userProperty ∨ identifier = willDelayInterval ∨
      identifier = messageExpiryInterval ∨ identifier = reasonString := by
  unfold mosquittoPropertyCheckCommand at h
  split at h <;> first | exact absurd h (by decide) | simp

theorem checkAll_cons {command : Nat} {p : Property} {props : List Property}
    (hv : mosquittoPropertyCheckAll command (p :: props) = Rc.success) :
    mosquittoPropertyCheckCommand command p.identifier = Rc.success ∧
      mosquittoPropertyCheckAll command props = Rc.success := by
  unfold mosquittoPropertyCheckAll at hv
  simp only at hv
  split at hv
  · cases hv
  · split at hv
    · rename_i hne
      exact absurd hv hne
    · rename_i hok
      split at hv
      · cases hv
      · exact ⟨not_not.mp hok, hv⟩

/-- `property__process_will` knows every property that the checks let pass but one: it
refuses a reason string. -/
theorem processWill_eq {props : List Property}
    (hv : mosquittoPropertyCheckAll Cmd.will props = Rc.success) (delay expiry : Nat)
    (kept : List Property) : processWill props delay expiry kept =
      if props.any (·.identifier = reasonString) then none
      else some (props.foldl (fun n p => if p.identifier = willDelayInterval then p.value.i32.toNat
          else n) delay,
        props.foldl (fun n p => if p.identifier = messageExpiryInterval then p.value.i32.toNat
          else n) expiry,
        kept ++ keptProps props) := by
  induction props generalizing delay expiry kept with
  | nil => simp [processWill, keptProps]
  | cons p props ih =>
    obtain ⟨hp, hprops⟩ := checkAll_cons hv
    unfold processWill
    rcases will_identifier hp with h | h | h | h | h | h | h | h <;>
      simp [h, ih hprops, keptProps, List.append_assoc]

/-! Each field is read back, whatever follows it. -/

theorem orProtocol_of_ok {α : Type} {r : PacketReader α} {s rest : Bytes} {a : α}
    (h : r s = .ok (a, rest)) : orProtocol r s = .ok (a, rest) := by
  rw [orProtocol, h]

theorem bind_of_error {α γ : Type} {r : PacketReader α} {f : α → PacketReader γ} {s : Bytes}
    {rc : Rc} (h : r s = .error rc) : (r >>= f) s = .error rc := by
  have hb : (r >>= f) s = (r s >>= fun p => f p.1 p.2) := rfl
  rw [hb, h]
  rfl

section Read

variable {mosq : Client} {keepalive : UInt16} {clean : Bool} {properties : List Property}
  {policy : ConnectPolicy}

theorem readProtocol_eq (hc : Connectable mosq keepalive clean properties) (rest : Bytes) :
    readProtocol (stringBytes (protocolName mosq.protocol) ++
      ([protocolVersion mosq.protocol] ++ rest)) =
      .ok ((mosq.protocol, false, protocolVersion mosq.protocol), rest) := by
  have hword : ∀ (w : UInt16) (s : Bytes), orProtocol packetReadUint16 (uint16Bytes w ++ s) =
      .ok (w, s) := fun w s => orProtocol_of_ok (packetReadUint16_eq_ok.mpr rfl)
  have hbytes : ∀ (name s : Bytes), orProtocol (packetReadBytes name.length) (name ++ s) =
      .ok (name, s) := fun name s => orProtocol_of_ok (items_eq_ok.mpr ⟨rfl, rfl⟩)
  have hbyte : ∀ (b : UInt8) (s : Bytes), orProtocol packetReadByte ([b] ++ s) = .ok (b, s) :=
    fun b s => orProtocol_of_ok (item_eq_ok.mpr rfl)
  unfold readProtocol stringBytes
  rw [List.append_assoc, bind_of_ok (hword _ _)]
  rcases hc.protocol with h | h | h
  · rw [h]
    exact (bind_of_ok (hbytes (ascii "MQIsdp") _)).trans (bind_of_ok (hbyte 3 rest))
  · rw [h]
    exact (bind_of_ok (hbytes (ascii "MQTT") _)).trans (bind_of_ok (hbyte 4 rest))
  · rw [h]
    exact (bind_of_ok (hbytes (ascii "MQTT") _)).trans (bind_of_ok (hbyte 5 rest))

theorem readConnectProps_eq (hc : Connectable mosq keepalive clean properties) (rest : Bytes) :
    readConnectProps (protocolVersion mosq.protocol)
      (propsField mosq.protocol (connectProps mosq properties) ++ rest) =
      .ok (if mosq.protocol = .mqtt5 then connectProps mosq properties else [], rest) := by
  unfold readConnectProps
  rcases hc.protocol with h | h | h
  · rw [h]
    rfl
  · rw [h]
    rfl
  · have hle := propertiesBytes_le_connect keepalive clean properties h
    have htotal := hc.length
    have hsmall : (propertiesBytes (connectProps mosq properties)).length < 2 ^ 28 := by omega
    rw [h, if_pos (show protocolVersion .mqtt5 = 5 from rfl), if_pos rfl, propsField_mqtt5]
    exact (propertyReadAll_eq_ok (.inr hsmall)).mpr ⟨hc.readable h, hsmall, hc.valid h, rfl⟩

/-- The settings of the broker that refuse or change something are not set. -/
structure ConnectPolicy.Open (policy : ConnectPolicy) (mosq : Client) (clean : Bool) : Prop where
  retain : policy.retainAvailable = true
  qos : policy.maxQos = .q2
  ids : policy.clientidPrefixes = none
  mount : policy.mountPoint = none
  size : policy.messageSizeLimit = 0
  zeroLength : mosq.id.getD [] = [] →
    policy.allowZeroLengthClientid = true ∧ (mosq.protocol = .mqtt311 → clean = true)

def givenId (policy : ConnectPolicy) (mosq : Client) : Bytes :=
  if mosq.id.getD [] = [] then policy.clientIdGen else mosq.id.getD []

theorem readClientId_eq (hc : Connectable mosq keepalive clean properties)
    (ho : policy.Open mosq clean) (rest : Bytes) :
    readClientId policy mosq.protocol clean (stringBytes (mosq.id.getD []) ++ rest) =
      .ok ((mosq.id.getD [], givenId policy mosq), rest) := by
  have hread : orProtocol packetReadString (stringBytes (mosq.id.getD []) ++ rest) =
      .ok (mosq.id.getD [], rest) :=
    orProtocol_of_ok (packetReadString_eq_ok.mpr ⟨⟨hc.id.2, hc.id.1⟩, rfl⟩)
  have hgiven : clientIdOf policy mosq.protocol clean (mosq.id.getD []) =
      .ok (givenId policy mosq) := by
    unfold clientIdOf givenId
    by_cases hid : mosq.id.getD [] = []
    · obtain ⟨hallow, hclean⟩ := ho.zeroLength hid
      have h31 : mosq.protocol ≠ .mqtt31 := fun h => hc.named h hid
      have h311 : ¬ (mosq.protocol = .mqtt311 ∧ clean = false ∨
          policy.allowZeroLengthClientid = false) := by
        rintro (⟨h, hf⟩ | h)
        · rw [hclean h] at hf
          cases hf
        · rw [hallow] at h
          cases h
      simp only [hid, List.length_nil, if_true, if_neg h31, if_neg h311, ho.ids, Option.all_none]
    · have hlen : (mosq.id.getD []).length ≠ 0 := fun h => hid (List.length_eq_zero_iff.mp h)
      simp only [if_neg hlen, if_neg hid, ho.ids, Option.all_none, if_true]
  unfold readClientId
  rw [bind_of_ok hread, hgiven]
  rfl

def readBackWill (w : WillMsg) (h : w.topic ≠ []) : Will where
  topic := w.topic
  topic_ne_nil := h
  payload := w.payload
  qos := w.qos
  retain := w.retain
  expiryInterval := intervalOf messageExpiryInterval w.properties
  properties := keptProps w.properties

theorem willRead_eq (hc : Connectable mosq keepalive clean properties)
    (ho : policy.Open mosq clean) {w : WillMsg} (hw : mosq.will = some w) (hne : w.topic ≠ [])
    (rest : Bytes) :
    willRead policy mosq.protocol w.qos w.retain (willField mosq.protocol (some w) ++ rest) =
      if w.properties.any (·.identifier = reasonString) then .error Rc.protocol
      else .ok ((readBackWill w hne, intervalOf willDelayInterval w.properties), rest) := by
  have ha := hc.will w hw
  have hprops : ∀ s, readWillProps mosq.protocol (propsField mosq.protocol w.properties ++ s) =
      if w.properties.any (·.identifier = reasonString) then .error Rc.protocol
      else .ok ((intervalOf willDelayInterval w.properties,
        intervalOf messageExpiryInterval w.properties, keptProps w.properties), s) := by
    intro s
    unfold readWillProps
    by_cases h5 : mosq.protocol = .mqtt5
    · have hle := willProps_le_connect keepalive clean properties h5 hw
      have htotal := hc.length
      have hsmall : (propertiesBytes w.properties).length < 2 ^ 28 := by omega
      have hread : propertyReadAll Cmd.will (propsField .mqtt5 w.properties ++ s) =
          .ok (w.properties, s) := by
        rw [propsField_mqtt5]
        exact (propertyReadAll_eq_ok (.inr hsmall)).mpr ⟨ha.readable, hsmall, ha.valid, rfl⟩
      rw [h5, if_pos rfl, bind_of_ok hread, processWill_eq ha.valid]
      by_cases hreason : w.properties.any (·.identifier = reasonString) = true
      · rw [if_pos hreason, if_pos hreason]
        rfl
      · rw [if_neg hreason, if_neg hreason]
        rfl
    · rw [(hc.bare h5).2 w hw, if_neg h5, propsField, if_neg h5]
      rfl
  have htopic : ∀ s, packetReadString (stringBytes w.topic ++ s) = .ok (w.topic, s) :=
    fun s => packetReadString_eq_ok.mpr ⟨⟨ha.topicLength.2, ha.utf8⟩, rfl⟩
  have hpayload : readWillPayload policy (stringBytes w.payload ++ rest) = .ok (w.payload, rest) := by
    have hto : (UInt16.ofNat w.payload.length).toNat = w.payload.length := by
      have := ha.payload
      rw [UInt16.toNat_ofNat']
      omega
    unfold readWillPayload stringBytes
    rw [List.append_assoc, bind_of_ok (packetReadUint16_eq_ok.mpr rfl), ho.size,
      if_neg (by omega), hto]
    exact items_eq_ok.mpr ⟨rfl, rfl⟩
  unfold willRead willField
  rw [List.append_assoc, List.append_assoc]
  by_cases hreason : w.properties.any (·.identifier = reasonString) = true
  · have hbad := hprops (stringBytes w.topic ++ (stringBytes w.payload ++ rest))
    rw [if_pos hreason] at hbad
    rw [if_pos hreason, bind_of_error hbad]
  · have hgood := hprops (stringBytes w.topic ++ (stringBytes w.payload ++ rest))
    rw [if_neg hreason] at hgood
    rw [if_neg hreason, bind_of_ok hgood]
    simp only
    rw [bind_of_ok (htopic _), dif_neg hne]
    simp only [ho.mount, Option.getD_none, List.nil_append]
    rw [if_neg (by rw [ha.topic]; decide), bind_of_ok hpayload]
    rfl

theorem readUsername_eq (hc : Connectable mosq keepalive clean properties) (rest : Bytes) :
    readUsername mosq.protocol mosq.username.isSome mosq.password.isSome
      (credentialField mosq.username ++ rest) = .ok (mosq.username, rest) := by
  unfold readUsername
  cases hu : mosq.username with
  | some username =>
    obtain ⟨hutf8, hlen⟩ := hc.username username hu
    have hread : packetReadString (stringBytes username ++ rest) = .ok (username, rest) :=
      packetReadString_eq_ok.mpr ⟨⟨hlen, hutf8⟩, rfl⟩
    simp only [Option.isSome_some, if_true, credentialField, hread]
  | none =>
    have hpass : ¬ ((mosq.protocol = .mqtt311 ∨ mosq.protocol = .mqtt31) ∧
        mosq.password.isSome = true) := by
      rintro ⟨h3, hp⟩
      have h5 : mosq.protocol ≠ .mqtt5 := by
        rcases h3 with h | h <;> rw [h] <;> decide
      rw [hc.credentials h5 hu] at hp
      cases hp
    rw [if_neg (by simp), if_neg hpass]
    rfl

theorem readPassword_eq (hp : ∀ password, mosq.password = some password →
    password.length ≤ 65535) (rest : Bytes) :
    readPassword mosq.protocol mosq.password.isSome (credentialField mosq.password ++ rest) =
      .ok (mosq.password, rest) := by
  unfold readPassword
  cases hw : mosq.password with
  | none => rfl
  | some password =>
    have hread : packetReadBinary (stringBytes password ++ rest) = .ok (password, rest) :=
      packetReadBinary_eq_ok.mpr ⟨hp password hw, rfl⟩
    simp only [Option.isSome_some, if_true, credentialField, hread]

theorem readThreshold_eq (thresholdL : UInt32) :
    readThreshold (thresholdL > 0) (thresholdField thresholdL) =
      .ok (if thresholdL > 0 then some thresholdL else none, []) := by
  unfold readThreshold thresholdField
  by_cases h : thresholdL > 0
  · have hread : orProtocol packetReadUint32 (uint32Bytes thresholdL) = .ok (thresholdL, []) :=
      orProtocol_of_ok (packetReadUint32_eq_ok.mpr (List.append_nil _).symm)
    simp only [h, decide_true, if_true]
    rw [bind_of_ok hread]
    rfl
  · simp only [h, decide_false, Bool.false_eq_true, if_false]
    rfl

theorem connectFlags_bits (clean : Bool) (will : Option (Qos × Bool))
    (username password threshold : Bool) :
    let flags := connectFlags clean will true username password threshold
    decide ((flags &&& 0x02) >>> 1 ≠ 0) = clean ∧ decide (flags &&& 0x04 ≠ 0) = will.isSome ∧
      decide (flags &&& 0x20 = 0x20) = will.elim false (·.2) ∧
      willQosOf flags = some (will.elim .q0 (·.1)) ∧ decide (flags &&& 0x80 ≠ 0) = username ∧
      decide (flags &&& 0x40 ≠ 0) = password ∧ decide (flags &&& 0x01 ≠ 0) = threshold := by
  rcases will with _ | ⟨qos, retain⟩
  · cases clean <;> cases username <;> cases password <;> cases threshold <;> decide
  · cases qos <;> cases retain <;> cases clean <;> cases username <;> cases password <;>
      cases threshold <;> decide

end Read

/-! ## The round trip -/

structure ReadBack (mosq : Client) (keepalive : UInt16) (clean : Bool)
    (properties : List Property) (parsed : ParsedConnect) : Prop where
  protocol : parsed.packet.protocol = mosq.protocol ∧ parsed.packet.isBridge = false
  keepalive : parsed.packet.keepalive = keepalive.toNat
  clean : parsed.packet.cleanStart = clean
  id : parsed.sentId = mosq.id.getD []
  will : parsed.packet.will.map (fun w => (w.topic, w.payload, w.qos, w.retain)) =
    mosq.will.map fun w => (w.topic, w.payload, w.qos, w.retain)
  willProps : parsed.packet.will.map (fun w => (w.expiryInterval, w.properties)) =
    mosq.will.map fun w => (intervalOf messageExpiryInterval w.properties, keptProps w.properties)
  willDelay : parsed.packet.willDelayInterval =
    mosq.will.elim 0 fun w => intervalOf willDelayInterval w.properties
  username : parsed.username = mosq.username
  password : parsed.password = mosq.password
  properties : parsed.packet.properties =
    if mosq.protocol = .mqtt5 then connectProps mosq properties else []
  flag : parsed.packet.thresholdL.isSome = true ↔ mosq.thresholdL > 0
  threshold : ∀ ctx : Context, ctx.thresholdL = 0 →
    (ctx.connect parsed.packet).thresholdL = mosq.thresholdL

section RoundTrip

variable {mosq : Client} {keepalive : UInt16} {clean : Bool} {properties : List Property}
  {policy : ConnectPolicy}

theorem parseConnect_will (hc : Connectable mosq keepalive clean properties)
    (ho : policy.Open mosq clean) :
    parseConnect policy 0x10 (connectBytes mosq keepalive clean properties) =
      (do
        let (willStruct, delay) ← readWill policy mosq.protocol mosq.will.isSome
          (mosq.will.elim .q0 (·.qos)) (mosq.will.elim false (·.retain))
        let username ← readUsername mosq.protocol mosq.username.isSome mosq.password.isSome
        let password ← readPassword mosq.protocol mosq.password.isSome
        let thresholdL ← readThreshold (mosq.thresholdL > 0)
        readEnd
        pure
          { packet :=
              { clientId := givenId policy mosq, protocol := mosq.protocol, isBridge := false
                cleanStart := clean, keepalive := keepalive.toNat
                properties := if mosq.protocol = .mqtt5 then connectProps mosq properties else []
                will := willStruct, willDelayInterval := delay, thresholdL }
            sentId := mosq.id.getD [], username, password } : PacketReader ParsedConnect)
      (willField mosq.protocol mosq.will ++ (credentialField mosq.username ++
        (credentialField mosq.password ++ thresholdField mosq.thresholdL))) := by
  have hbits := connectFlags_bits clean (mosq.will.map fun w => (w.qos, w.retain))
    mosq.username.isSome mosq.password.isSome (mosq.thresholdL > 0)
  have hflags : mosq.flags clean = connectFlags clean (mosq.will.map fun w => (w.qos, w.retain))
      true mosq.username.isSome mosq.password.isSome (mosq.thresholdL > 0) := by
    rw [Client.flags, hc.retain]
  have hbyte : ∀ s, orProtocol packetReadByte ([mosq.flags clean] ++ s) =
      .ok (mosq.flags clean, s) := fun s => orProtocol_of_ok (item_eq_ok.mpr rfl)
  have hword : ∀ s, orProtocol packetReadUint16 (uint16Bytes keepalive ++ s) =
      .ok (keepalive, s) := fun s => orProtocol_of_ok (packetReadUint16_eq_ok.mpr rfl)
  have hqos : ∀ qos : Qos, ¬ (qos.toNat > policy.maxQos.toNat) := by
    intro qos
    rw [ho.qos]
    cases qos <;> decide
  rw [← hflags] at hbits
  obtain ⟨hclean, hwill, hretain, hqosOf, husername, hpassword, hthreshold⟩ := hbits
  rw [Option.isSome_map] at hwill
  have helim : ∀ {γ : Type} (d : γ) (g : Qos × Bool → γ),
      (mosq.will.map fun w => (w.qos, w.retain)).elim d g =
        mosq.will.elim d fun w => g (w.qos, w.retain) := by
    intro γ d g
    cases mosq.will <;> rfl
  rw [helim] at hretain hqosOf
  unfold parseConnect connectBytes
  rw [if_neg (by simp), bind_of_ok (readProtocol_eq hc _)]
  simp only
  rw [bind_of_ok (hbyte _), hqosOf]
  simp only [hclean, hwill, hretain, husername, hpassword, hthreshold, ho.retain, hqos]
  rw [if_neg (by simp), bind_of_ok (hword _), bind_of_ok (readConnectProps_eq hc _),
    if_neg (by simp), bind_of_ok (readClientId_eq hc ho _)]

/-- A will with a reason string is refused. -/
theorem parseConnect_reason (hc : Connectable mosq keepalive clean properties)
    (ho : policy.Open mosq clean) {w : WillMsg} (hw : mosq.will = some w)
    (hreason : w.properties.any (·.identifier = reasonString) = true) :
    parseConnect policy 0x10 (connectBytes mosq keepalive clean properties) =
      .error Rc.protocol := by
  have hne : w.topic ≠ [] := by
    have := (hc.will w hw).topicLength
    exact List.length_pos_iff.mp (by omega)
  rw [parseConnect_will hc ho, hw]
  have hwill := willRead_eq hc ho hw hne
  refine bind_of_error ?_
  show readWill policy mosq.protocol true w.qos w.retain _ = _
  rw [readWill, if_pos rfl]
  refine bind_of_error ?_
  rw [hwill, if_pos hreason]

theorem readWill_eq (hc : Connectable mosq keepalive clean properties)
    (ho : policy.Open mosq clean)
    (hreason : ∀ w, mosq.will = some w → ∀ p ∈ w.properties, p.identifier ≠ reasonString) :
    ∃ will : Option Will,
      (∀ s, readWill policy mosq.protocol mosq.will.isSome (mosq.will.elim .q0 (·.qos))
        (mosq.will.elim false (·.retain)) (willField mosq.protocol mosq.will ++ s) =
        .ok ((will, mosq.will.elim 0 fun w => intervalOf willDelayInterval w.properties), s)) ∧
      will.map (fun w => (w.topic, w.payload, w.qos, w.retain)) =
        mosq.will.map (fun w => (w.topic, w.payload, w.qos, w.retain)) ∧
      will.map (fun w => (w.expiryInterval, w.properties)) = mosq.will.map fun w =>
        (intervalOf messageExpiryInterval w.properties, keptProps w.properties) := by
  unfold readWill
  cases hw : mosq.will with
  | none =>
    refine ⟨none, fun s => ?_, rfl, rfl⟩
    rw [if_neg (by simp), if_neg (by simp)]
    rfl
  | some w =>
    have hne : w.topic ≠ [] := by
      have := (hc.will w hw).topicLength
      exact List.length_pos_iff.mp (by omega)
    refine ⟨some (readBackWill w hne), fun s => ?_, rfl, rfl⟩
    have hread := willRead_eq hc ho hw hne s
    rw [if_neg (by simpa using hreason w hw)] at hread
    exact bind_of_ok hread

theorem parseConnect_ok (hc : Connectable mosq keepalive clean properties)
    (ho : policy.Open mosq clean)
    (hp : ∀ password, mosq.password = some password → password.length ≤ 65535)
    (hreason : ∀ w, mosq.will = some w → ∀ p ∈ w.properties, p.identifier ≠ reasonString) :
    ∃ parsed, parseConnect policy 0x10 (connectBytes mosq keepalive clean properties) =
      .ok (parsed, []) ∧ ReadBack mosq keepalive clean properties parsed := by
  obtain ⟨will, hread, hwill, hprops⟩ := readWill_eq hc ho hreason
  refine ⟨⟨⟨givenId policy mosq, mosq.protocol, false, clean, keepalive.toNat,
    if mosq.protocol = .mqtt5 then connectProps mosq properties else [], will,
    mosq.will.elim 0 fun w => intervalOf willDelayInterval w.properties,
    if mosq.thresholdL > 0 then some mosq.thresholdL else none⟩, mosq.id.getD [], mosq.username,
    mosq.password⟩, ?_, ⟨rfl, rfl⟩, rfl, rfl, rfl, hwill, hprops, rfl, rfl, rfl, rfl, ?_, ?_⟩
  · rw [parseConnect_will hc ho, bind_of_ok (hread _)]
    simp only
    rw [bind_of_ok (readUsername_eq hc _), bind_of_ok (readPassword_eq hp _),
      bind_of_ok (readThreshold_eq _)]
    rfl
  · show (if mosq.thresholdL > 0 then some mosq.thresholdL else none).isSome = true ↔ _
    by_cases h : mosq.thresholdL > 0
    · simp [h]
    · simp [h]
  · intro ctx hctx
    show (if mosq.thresholdL > 0 then some mosq.thresholdL else none).getD _ = _
    by_cases h : mosq.thresholdL > 0
    · rw [if_pos h]
      rfl
    · have hzero : mosq.thresholdL = 0 := by
        apply UInt32.toNat_inj.mp
        have hnot : ¬ 0 < mosq.thresholdL.toNat := h
        show mosq.thresholdL.toNat = 0
        omega
      rw [if_neg h, hzero]
      show Context.thresholdL _ = 0
      rw [← hctx]
      split
      · exact Context.processConnect_field (·.thresholdL) (fun _ _ => rfl) (fun _ _ => rfl)
          (fun _ _ => rfl) _ _
      · rfl

/-- No password that is read is longer than its length field can say. -/
theorem parseConnect_password {command : UInt8} {s rest : Bytes} {parsed : ParsedConnect}
    (h : parseConnect policy command s = .ok (parsed, rest)) {password : Bytes}
    (hp : parsed.password = some password) : password.length ≤ 65535 := by
  have hread : ∀ {protocol : Protocol} {flag : Bool} {s rest : Bytes} {r : Option Bytes},
      readPassword protocol flag s = .ok (r, rest) → ∀ pw, r = some pw → pw.length ≤ 65535 := by
    intro protocol flag s rest r h pw hpw
    subst hpw
    unfold readPassword at h
    cases flag with
    | false => cases h
    | true =>
      simp only [if_true] at h
      cases hb : packetReadBinary s with
      | ok r =>
        simp only [hb, Except.ok.injEq, Prod.mk.injEq, Option.some.injEq] at h
        rw [← h.1]
        exact (packetReadBinary_eq_ok.mp hb).1
      | error rc =>
        simp only [hb] at h
        split at h
        · cases h
        · cases h
  unfold parseConnect at h
  split at h
  · cases h
  · obtain ⟨⟨protocol, isBridge, version⟩, s₁, -, h⟩ := bind_eq_ok.mp h
    obtain ⟨flags, s₂, -, h⟩ := bind_eq_ok.mp h
    simp only at h
    cases hq : willQosOf flags with
    | none =>
      rw [hq] at h
      cases h
    | some willQos =>
      simp only [hq] at h
      split at h
      · cases h
      · obtain ⟨keepalive, s₃, -, h⟩ := bind_eq_ok.mp h
        obtain ⟨properties, s₄, -, h⟩ := bind_eq_ok.mp h
        split at h
        · cases h
        · obtain ⟨⟨sentId, clientId⟩, s₅, -, h⟩ := bind_eq_ok.mp h
          obtain ⟨⟨will, delay⟩, s₆, -, h⟩ := bind_eq_ok.mp h
          obtain ⟨username, s₇, -, h⟩ := bind_eq_ok.mp h
          obtain ⟨pw, s₈, hpw, h⟩ := bind_eq_ok.mp h
          obtain ⟨thresholdL, s₉, -, h⟩ := bind_eq_ok.mp h
          obtain ⟨-, s₀, -, h⟩ := bind_eq_ok.mp h
          obtain ⟨rfl, -⟩ := pure_eq_ok.mp h
          exact hread hpw password hp

/-- The command and the remaining length of a packet. -/
def fixedHeader : PacketReader (UInt8 × Nat) := do
  let command ← packetReadByte
  let (remainingLength, _) ← packetReadVarint
  pure (command, remainingLength)

/-- The packet is full, and what is read from it is what the client has. -/
def ConnectRoundTrip (policy : ConnectPolicy) (mosq : Client) (keepalive : UInt16) (clean : Bool)
    (properties : List Property) : Prop :=
  ∃ buffer command body parsed, sendConnect mosq keepalive clean properties = .ok buffer ∧
    buffer.written.length = buffer.size ∧
    fixedHeader buffer.written = .ok ((command, body.length), body) ∧
    parseConnect policy command body = .ok (parsed, []) ∧
    ReadBack mosq keepalive clean properties parsed

theorem fixedHeader_eq (command : UInt8) {body : Bytes} (h : body.length < 2 ^ 28) :
    fixedHeader (command :: (varintBytes body.length ++ body)) =
      .ok ((command, body.length), body) := by
  have hvarint : packetReadVarint (varintBytes body.length ++ body) =
      .ok ((body.length, (varintBytes body.length).length), body) :=
    packetReadVarint_eq_ok.mpr ⟨h, rfl, rfl⟩
  have hbyte : packetReadByte (command :: (varintBytes body.length ++ body)) =
      .ok (command, varintBytes body.length ++ body) := item_eq_ok.mpr rfl
  unfold fixedHeader
  rw [bind_of_ok hbyte, bind_of_ok hvarint]
  rfl

/-- **CONNECT round trip**: exactly if the password has at most 65535 bytes and the will has no
reason string. -/
theorem connect_roundtrip_iff (hc : Connectable mosq keepalive clean properties)
    (ho : policy.Open mosq clean) :
    ConnectRoundTrip policy mosq keepalive clean properties ↔
      (∀ password, mosq.password = some password → password.length ≤ 65535) ∧
      ∀ w, mosq.will = some w → ∀ p ∈ w.properties, p.identifier ≠ reasonString := by
  have hbody : (connectBytes mosq keepalive clean properties).length < 2 ^ 28 := by
    have := hc.length
    omega
  constructor
  · rintro ⟨buffer, command, body, parsed, hsend, -, hhead, hparse, hback⟩
    have hp : ∀ password, mosq.password = some password → password.length ≤ 65535 :=
      fun password h => parseConnect_password hparse (hback.password.trans h)
    obtain ⟨buffer', hsend', hwritten, -⟩ := sendConnect_eq hc hp
    rw [hsend] at hsend'
    cases hsend'
    rw [hwritten, fixedHeader_eq 0x10 hbody] at hhead
    have hinj := Except.ok.inj hhead
    obtain rfl : 0x10 = command := congrArg (·.1.1) hinj
    obtain rfl : connectBytes mosq keepalive clean properties = body := congrArg Prod.snd hinj
    refine ⟨hp, fun w hw p hmem hid => ?_⟩
    have hreason := parseConnect_reason hc ho hw (List.any_eq_true.mpr ⟨p, hmem, by simpa using hid⟩)
    rw [hreason] at hparse
    cases hparse
  · rintro ⟨hp, hreason⟩
    obtain ⟨buffer, hsend, hwritten, hsize⟩ := sendConnect_eq hc hp
    obtain ⟨parsed, hparse, hback⟩ := parseConnect_ok hc ho hp hreason
    refine ⟨buffer, 0x10, _, parsed, hsend, hsize.symm, ?_, hparse, hback⟩
    rw [hwritten]
    exact fixedHeader_eq 0x10 hbody

end RoundTrip

/-- A client of MQTT 5 with a will. -/
def Client.sample (password : Bytes) : Client where
  protocol := .mqtt5
  id := some (ascii "c")
  username := some (ascii "u")
  password := some password
  will := some ⟨ascii "w", ascii "bye", .q1, true, [⟨willDelayInterval, .int32 5⟩]⟩
  thresholdL := 300
  inflightMaximum := 20
  retainAvailable := true

/-- A broker that takes everything. -/
def ConnectPolicy.sample : ConnectPolicy := ⟨true, .q2, true, [], none, none, 0⟩

theorem connectable_sample {password : Bytes} (h : password.length ≤ 99000) :
    Connectable (Client.sample password) 60 true [] where
  protocol := .inr (.inr rfl)
  id := show Utf8 (ascii "c") ∧ (ascii "c").length ≤ 65535 by decide
  named := fun h => nomatch h
  username := by
    rintro _ ⟨⟩
    exact ⟨by decide, by decide⟩
  credentials := fun h => absurd rfl h
  will := by
    rintro _ ⟨⟩
    exact ⟨by decide, by decide, by decide, by decide, by decide, by decide⟩
  retain := rfl
  valid := fun _ => show mosquittoPropertyCheckAll Cmd.connect [⟨receiveMaximum, .int16 20⟩] =
    Rc.success by decide
  readable := fun _ => show ∀ p ∈ [(⟨receiveMaximum, .int16 20⟩ : Property)], p.Readable by decide
  bare := fun h => absurd rfl h
  length := by
    have hlen := length_connectBytes (Client.sample password) 60 true []
    have hpass : (credentialField (Client.sample password).password).length =
      2 + password.length := length_stringBytes password
    have hrest : (stringBytes (protocolName (Client.sample password).protocol)).length + 4 +
        (propsField (Client.sample password).protocol
          (connectProps (Client.sample password) [])).length +
        ((stringBytes ((Client.sample password).id.getD [])).length +
        (willField (Client.sample password).protocol (Client.sample password).will).length +
        (credentialField (Client.sample password).username).length +
        (thresholdField (Client.sample password).thresholdL).length) = 38 := rfl
    omega

theorem open_sample (password : Bytes) :
    ConnectPolicy.sample.Open (Client.sample password) true :=
  ⟨rfl, rfl, rfl, rfl, rfl, fun h => nomatch h⟩

theorem connect_roundtrip_sample :
    ConnectRoundTrip ConnectPolicy.sample (Client.sample (ascii "pw")) 60 true [] := by
  refine (connect_roundtrip_iff (connectable_sample (by decide)) (open_sample _)).mpr ⟨?_, ?_⟩
  · rintro _ ⟨⟩
    decide
  · rintro _ ⟨⟩
    decide

/-- A password of 65536 bytes does not arrive. -/
theorem connect_long_password :
    Connectable (Client.sample (List.replicate 65536 97)) 60 true [] ∧
    ConnectPolicy.sample.Open (Client.sample (List.replicate 65536 97)) true ∧
    ¬ ConnectRoundTrip ConnectPolicy.sample (Client.sample (List.replicate 65536 97)) 60 true [] := by
  refine ⟨connectable_sample (by rw [List.length_replicate]; omega), open_sample _, ?_⟩
  rintro ⟨buffer, command, body, parsed, -, -, -, hparse, hback⟩
  have hlen := parseConnect_password hparse hback.password
  rw [List.length_replicate] at hlen
  omega

end Packet

end AdaptiveMqtt
