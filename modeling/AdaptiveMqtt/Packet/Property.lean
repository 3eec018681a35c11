import AdaptiveMqtt.Packet.Datatypes

/-!
# Properties

`lib/property_mosq.c`. Reading, writing and measuring a property each have a `switch` over
its identifier. `propType` is the table of `mqtt_protocol.h`, and each of the three is what
the table says (`propertyRead_eq`, `propertyWrite_eq`, `propertyGetLength_eq`); a property
is `Readable` if its value has the type of its identifier and can be encoded.

`property__read_all` counts down the announced length in a `uint32_t` that may wrap. A
buffer of less than 2^28 bytes is too short for a wrapped counter to come back to zero, so
that what it consumes is what was announced.
-/

namespace AdaptiveMqtt

/-! ## The value union -/

namespace PropertyValue

/-- `value.i8`; a member that was not written reads as zero. -/
def i8 : PropertyValue → UInt8
  | .byte v => v
  | _ => 0

def i16 : PropertyValue → UInt16
  | .int16 v => v
  | _ => 0

def i32 : PropertyValue → UInt32
  | .int32 v => v
  | _ => 0

def varintValue : PropertyValue → Nat
  | .varint v => v
  | _ => 0

def bin : PropertyValue → Bytes
  | .binary v => v
  | _ => []

/-- `value.s`, of a string or of the second half of a pair. -/
def s : PropertyValue → Bytes
  | .string v => v
  | .stringPair _ v => v
  | _ => []

def name : PropertyValue → Bytes
  | .stringPair n _ => n
  | _ => []

end PropertyValue

namespace Packet

open Lib Reader Writer

/-! ## Constants -/

-- `enum mqtt5_property`
namespace MqttProp

@[match_pattern] abbrev payloadFormatIndicator : Nat := 1
@[match_pattern] abbrev messageExpiryInterval : Nat := 2
@[match_pattern] abbrev contentType : Nat := 3
@[match_pattern] abbrev responseTopic : Nat := 8
@[match_pattern] abbrev correlationData : Nat := 9
@[match_pattern] abbrev subscriptionIdentifier : Nat := 11
@[match_pattern] abbrev sessionExpiryInterval : Nat := 17
@[match_pattern] abbrev assignedClientIdentifier : Nat := 18
@[match_pattern] abbrev serverKeepAlive : Nat := 19
@[match_pattern] abbrev authenticationMethod : Nat := 21
@[match_pattern] abbrev authenticationData : Nat := 22
@[match_pattern] abbrev requestProblemInformation : Nat := 23
@[match_pattern] abbrev willDelayInterval : Nat := 24
@[match_pattern] abbrev requestResponseInformation : Nat := 25
@[match_pattern] abbrev responseInformation : Nat := 26
@[match_pattern] abbrev serverReference : Nat := 28
@[match_pattern] abbrev reasonString : Nat := 31
@[match_pattern] abbrev receiveMaximum : Nat := 33
@[match_pattern] abbrev topicAliasMaximum : Nat := 34
@[match_pattern] abbrev topicAlias : Nat := 35
@[match_pattern] abbrev maximumQos : Nat := 36
@[match_pattern] abbrev retainAvailable : Nat := 37
@[match_pattern] abbrev userProperty : Nat := 38
@[match_pattern] abbrev maximumPacketSize : Nat := 39
@[match_pattern] abbrev wildcardSubAvailable : Nat := 40
@[match_pattern] abbrev subscriptionIdAvailable : Nat := 41
@[match_pattern] abbrev sharedSubAvailable : Nat := 42

end MqttProp

-- the commands of `mqtt_protocol.h`
namespace Cmd

abbrev connect : Nat := 0x10
abbrev connack : Nat := 0x20
abbrev publish : Nat := 0x30
abbrev puback : Nat := 0x40
abbrev pubrec : Nat := 0x50
abbrev pubrel : Nat := 0x60
abbrev pubcomp : Nat := 0x70
abbrev subscribe : Nat := 0x80
abbrev suback : Nat := 0x90
abbrev unsubscribe : Nat := 0xA0
abbrev unsuback : Nat := 0xB0
abbrev pingreq : Nat := 0xC0
abbrev pingresp : Nat := 0xD0
abbrev disconnect : Nat := 0xE0
abbrev auth : Nat := 0xF0
abbrev will : Nat := 0x100

end Cmd

open MqttProp

/-! ## The switches -/

/-- `property__read`: the property and the new `*len`. -/
def propertyRead (len : UInt32) : PacketReader (Property × UInt32) := do
  let (identifier, _) ← packetReadVarint
  let len := len - 1
  match identifier with
  | payloadFormatIndicator | requestProblemInformation | requestResponseInformation
  | maximumQos | retainAvailable | wildcardSubAvailable | subscriptionIdAvailable
  | sharedSubAvailable => do
    let byte ← packetReadByte
    pure (⟨identifier, .byte byte⟩, len - 1)
  | serverKeepAlive | receiveMaximum | topicAliasMaximum | topicAlias => do
    let uint16 ← packetReadUint16
    pure (⟨identifier, .int16 uint16⟩, len - 2)
  | messageExpiryInterval | sessionExpiryInterval | willDelayInterval | maximumPacketSize => do
    let uint32 ← packetReadUint32
    pure (⟨identifier, .int32 uint32⟩, len - 4)
  | subscriptionIdentifier => do
    let (varint, byteCount) ← packetReadVarint
    pure (⟨identifier, .varint varint⟩, len - UInt32.ofNat byteCount)
  | contentType | responseTopic | assignedClientIdentifier | authenticationMethod
  | responseInformation | serverReference | reasonString => do
    let str1 ← packetReadString
    pure (⟨identifier, .string str1⟩, len - 2 - UInt32.ofNat str1.length)
  | authenticationData | correlationData => do
    let str1 ← packetReadBinary
    pure (⟨identifier, .binary str1⟩, len - 2 - UInt32.ofNat str1.length)
  | userProperty => do
    let str1 ← packetReadString
    let len := len - 2 - UInt32.ofNat str1.length
    let str2 ← packetReadString
    pure (⟨identifier, .stringPair str1 str2⟩, len - 2 - UInt32.ofNat str2.length)
  | _ => fail Rc.malformedPacket

def propertyGetLength (property : Property) : Nat :=
  match property.identifier with
  | payloadFormatIndicator | requestProblemInformation | requestResponseInformation
  | maximumQos | retainAvailable | wildcardSubAvailable | subscriptionIdAvailable
  | sharedSubAvailable => 2
  | serverKeepAlive | receiveMaximum | topicAliasMaximum | topicAlias => 3
  | messageExpiryInterval | willDelayInterval | maximumPacketSize | sessionExpiryInterval => 5
  | subscriptionIdentifier =>
    if property.value.varintValue < 128 then 2
    else if property.value.varintValue < 16384 then 3
    else if property.value.varintValue < 2097152 then 4
    else if property.value.varintValue < 268435456 then 5
    else 0
  | correlationData | authenticationData => 3 + property.value.bin.length
  | contentType | responseTopic | assignedClientIdentifier | authenticationMethod
  | responseInformation | serverReference | reasonString => 3 + property.value.s.length
  | userProperty => 5 + property.value.s.length + property.value.name.length
  | _ => 0

def propertyGetLengthAll (properties : List Property) : Nat :=
  properties.foldl (fun len p => (len + propertyGetLength p) % 2 ^ 32) 0

def propertyGetRemainingLength (props : List Property) : Nat :=
  (propertyGetLengthAll props + packetVarintBytes (propertyGetLengthAll props)) % 2 ^ 32

def propertyWrite (property : Property) : PacketWriter Unit := do
  packetWriteVarint property.identifier
  match property.identifier with
  | payloadFormatIndicator | requestProblemInformation | requestResponseInformation
  | maximumQos | retainAvailable | wildcardSubAvailable | subscriptionIdAvailable
  | sharedSubAvailable => packetWriteByte property.value.i8
  | serverKeepAlive | receiveMaximum | topicAliasMaximum | topicAlias =>
    packetWriteUint16 property.value.i16
  | messageExpiryInterval | sessionExpiryInterval | willDelayInterval | maximumPacketSize =>
    packetWriteUint32 property.value.i32
  | subscriptionIdentifier => packetWriteVarint property.value.varintValue
  | contentType | responseTopic | assignedClientIdentifier | authenticationMethod
  | responseInformation | serverReference | reasonString =>
    packetWriteString property.value.s (UInt16.ofNat property.value.s.length)
  | authenticationData | correlationData => do
    packetWriteUint16 (UInt16.ofNat property.value.bin.length)
    packetWriteBytes property.value.bin
  | userProperty => do
    packetWriteString property.value.name (UInt16.ofNat property.value.name.length)
    packetWriteString property.value.s (UInt16.ofNat property.value.s.length)
  | _ => Writer.fail (.code Rc.inval)

def propertyWriteAll (properties : List Property) (writeLen : Bool) : PacketWriter Unit := do
  if writeLen then packetWriteVarint (propertyGetLengthAll properties)
  properties.forM propertyWrite

/-! ## Checks -/

def mosquittoPropertyCheckCommand (command identifier : Nat) : Rc :=
  match identifier with
  | payloadFormatIndicator | messageExpiryInterval | contentType | responseTopic
  | correlationData =>
    if command ≠ Cmd.publish ∧ command ≠ Cmd.will then Rc.protocol else Rc.success
  | subscriptionIdentifier =>
    if command ≠ Cmd.publish ∧ command ≠ Cmd.subscribe then Rc.protocol else Rc.success
  | sessionExpiryInterval =>
    if command ≠ Cmd.connect ∧ command ≠ Cmd.connack ∧ command ≠ Cmd.disconnect then Rc.protocol
    else Rc.success
  | authenticationMethod | authenticationData =>
    if command ≠ Cmd.connect ∧ command ≠ Cmd.connack ∧ command ≠ Cmd.auth then Rc.protocol
    else Rc.success
  | assignedClientIdentifier | serverKeepAlive | responseInformation | maximumQos
  | retainAvailable | wildcardSubAvailable | subscriptionIdAvailable | sharedSubAvailable =>
    if command ≠ Cmd.connack then Rc.protocol else Rc.success
  | willDelayInterval => if command ≠ Cmd.will then Rc.protocol else Rc.success
  | requestProblemInformation | requestResponseInformation =>
    if command ≠ Cmd.connect then Rc.protocol else Rc.success
  | serverReference =>
    if command ≠ Cmd.connack ∧ command ≠ Cmd.disconnect then Rc.protocol else Rc.success
  | reasonString =>
    if command = Cmd.connect ∨ command = Cmd.publish ∨ command = Cmd.subscribe ∨
        command = Cmd.unsubscribe then Rc.protocol
    else Rc.success
  | receiveMaximum | topicAliasMaximum | maximumPacketSize =>
    if command ≠ Cmd.connect ∧ command ≠ Cmd.connack then Rc.protocol else Rc.success
  | topicAlias => if command ≠ Cmd.publish then Rc.protocol else Rc.success
  | userProperty => Rc.success
  | _ => Rc.protocol

/-- The validity checks of `mosquitto_property_check_all` on a value. -/
def valueRefused (p : Property) : Bool :=
  match p.identifier with
  | requestProblemInformation | payloadFormatIndicator | requestResponseInformation
  | maximumQos | retainAvailable | wildcardSubAvailable | subscriptionIdAvailable
  | sharedSubAvailable => p.value.i8 > 1
  | maximumPacketSize => p.value.i32 = 0
  | receiveMaximum | topicAlias => p.value.i16 = 0
  | _ => false

def mosquittoPropertyCheckAll (command : Nat) : List Property → Rc
  | [] => Rc.success
  | p :: tail =>
    if valueRefused p then Rc.protocol
    else
      let rc := mosquittoPropertyCheckCommand command p.identifier
      if rc ≠ Rc.success then rc
      else if p.identifier ≠ userProperty ∧ tail.any (·.identifier = p.identifier) then
        Rc.duplicateProperty
      else mosquittoPropertyCheckAll command tail

/-- The loop of `property__read_all`. A property takes a byte at least, so `fuel` is one
more than the bytes that are left. -/
def propertyReadLoop : Nat → UInt32 → PacketReader (List Property)
  | 0, _ => fail Rc.malformedPacket
  | fuel + 1, proplen =>
    if proplen > 0 then do
      let (p, proplen) ← propertyRead proplen
      let properties ← propertyReadLoop fuel proplen
      pure (p :: properties)
    else pure []

def propertyReadAll (command : Nat) : PacketReader (List Property) := do
  let (proplen, _) ← packetReadVarint
  let properties ← fun s => propertyReadLoop (s.length + 1) (UInt32.ofNat proplen) s
  let rc := mosquittoPropertyCheckAll command properties
  if rc ≠ Rc.success then fail rc else pure properties

/-! ## The table -/

inductive PropType where
  | byte | int16 | int32 | varint | binary | string | stringPair
  deriving DecidableEq, Repr

def propType : Nat → Option PropType
  | payloadFormatIndicator => some .byte
  | messageExpiryInterval => some .int32
  | contentType => some .string
  | responseTopic => some .string
  | correlationData => some .binary
  | subscriptionIdentifier => some .varint
  | sessionExpiryInterval => some .int32
  | assignedClientIdentifier => some .string
  | serverKeepAlive => some .int16
  | authenticationMethod => some .string
  | authenticationData => some .binary
  | requestProblemInformation => some .byte
  | willDelayInterval => some .int32
  | requestResponseInformation => some .byte
  | responseInformation => some .string
  | serverReference => some .string
  | reasonString => some .string
  | receiveMaximum => some .int16
  | topicAliasMaximum => some .int16
  | topicAlias => some .int16
  | maximumQos => some .byte
  | retainAvailable => some .byte
  | userProperty => some .stringPair
  | maximumPacketSize => some .int32
  | wildcardSubAvailable => some .byte
  | subscriptionIdAvailable => some .byte
  | sharedSubAvailable => some .byte
  | _ => none

end Packet

namespace PropertyValue

def type : PropertyValue → Packet.PropType
  | byte _ => .byte
  | int16 _ => .int16
  | int32 _ => .int32
  | varint _ => .varint
  | binary _ => .binary
  | string _ => .string
  | stringPair _ _ => .stringPair

def bytes : PropertyValue → Bytes
  | byte v => [v]
  | int16 v => Packet.uint16Bytes v
  | int32 v => Packet.uint32Bytes v
  | varint v => Packet.varintBytes v
  | binary v => Packet.stringBytes v
  | string v => Packet.stringBytes v
  | stringPair n v => Packet.stringBytes n ++ Packet.stringBytes v

/-- A value that a reader can produce. -/
def Readable : PropertyValue → Prop
  | byte _ | int16 _ | int32 _ => True
  | varint v => v < 2 ^ 28
  | binary v => v.length ≤ 65535
  | string v => v.length ≤ 65535 ∧ Packet.Utf8 v
  | stringPair n v => (n.length ≤ 65535 ∧ Packet.Utf8 n) ∧ v.length ≤ 65535 ∧ Packet.Utf8 v

instance : (v : PropertyValue) → Decidable v.Readable
  | byte _ | int16 _ | int32 _ => inferInstanceAs (Decidable True)
  | varint _ => inferInstanceAs (Decidable (_ < _))
  | binary _ => inferInstanceAs (Decidable (_ ≤ _))
  | string _ => inferInstanceAs (Decidable (_ ∧ _))
  | stringPair _ _ => inferInstanceAs (Decidable (_ ∧ _))

end PropertyValue

namespace Property

/-- A property that `property__read` can produce. -/
def Readable (p : Property) : Prop :=
  Packet.propType p.identifier = some p.value.type ∧ p.value.Readable

instance (p : Property) : Decidable p.Readable := inferInstanceAs (Decidable (_ ∧ _))

def bytes (p : Property) : Bytes := UInt8.ofNat p.identifier :: p.value.bytes

end Property

namespace Packet

open Lib Reader Writer MqttProp

/-- The reader of a value by its type, with the bytes the counter is told. -/
def readValue : PropType → PacketReader (PropertyValue × UInt32)
  | .byte => do
    let byte ← packetReadByte
    pure (.byte byte, 1)
  | .int16 => do
    let uint16 ← packetReadUint16
    pure (.int16 uint16, 2)
  | .int32 => do
    let uint32 ← packetReadUint32
    pure (.int32 uint32, 4)
  | .varint => do
    let (varint, byteCount) ← packetReadVarint
    pure (.varint varint, UInt32.ofNat byteCount)
  | .binary => do
    let str1 ← packetReadBinary
    pure (.binary str1, 2 + UInt32.ofNat str1.length)
  | .string => do
    let str1 ← packetReadString
    pure (.string str1, 2 + UInt32.ofNat str1.length)
  | .stringPair => do
    let str1 ← packetReadString
    let str2 ← packetReadString
    pure (.stringPair str1 str2, 2 + UInt32.ofNat str1.length + 2 + UInt32.ofNat str2.length)

theorem readValue_eq_ok {t : PropType} {s rest : Bytes} {v : PropertyValue} {n : UInt32} :
    readValue t s = .ok ((v, n), rest) ↔
      v.type = t ∧ v.Readable ∧ n = UInt32.ofNat v.bytes.length ∧ s = v.bytes ++ rest := by
  constructor
  · intro h
    cases t <;> simp only [readValue, bind_eq_ok, pure_eq_ok, Prod.mk.injEq] at h
    case byte =>
      obtain ⟨b, s', hs, ⟨rfl, rfl⟩, rfl⟩ := h
      exact ⟨rfl, trivial, rfl, item_eq_ok.mp hs⟩
    case int16 =>
      obtain ⟨w, s', hs, ⟨rfl, rfl⟩, rfl⟩ := h
      exact ⟨rfl, trivial, rfl, packetReadUint16_eq_ok.mp hs⟩
    case int32 =>
      obtain ⟨w, s', hs, ⟨rfl, rfl⟩, rfl⟩ := h
      exact ⟨rfl, trivial, rfl, packetReadUint32_eq_ok.mp hs⟩
    case varint =>
      obtain ⟨⟨w, k⟩, s', hs, ⟨rfl, rfl⟩, rfl⟩ := h
      obtain ⟨hw, hk, hs⟩ := packetReadVarint_eq_ok.mp hs
      exact ⟨rfl, hw, by rw [hk]; rfl, hs⟩
    case binary =>
      obtain ⟨d, s', hs, ⟨rfl, rfl⟩, rfl⟩ := h
      obtain ⟨hd, hs⟩ := packetReadBinary_eq_ok.mp hs
      exact ⟨rfl, hd, by simp [PropertyValue.bytes, UInt32.ofNat_add], hs⟩
    case string =>
      obtain ⟨d, s', hs, ⟨rfl, rfl⟩, rfl⟩ := h
      obtain ⟨hd, hs⟩ := packetReadString_eq_ok.mp hs
      exact ⟨rfl, hd, by simp [PropertyValue.bytes, UInt32.ofNat_add], hs⟩
    case stringPair =>
      obtain ⟨d, s', hs, d', s'', hs', ⟨rfl, rfl⟩, rfl⟩ := h
      obtain ⟨hd, rfl⟩ := packetReadString_eq_ok.mp hs
      obtain ⟨hd', rfl⟩ := packetReadString_eq_ok.mp hs'
      refine ⟨rfl, ⟨hd, hd'⟩, ?_, (List.append_assoc _ _ _).symm⟩
      simp [PropertyValue.bytes, UInt32.ofNat_add, UInt32.add_assoc]
  · rintro ⟨rfl, hr, rfl, rfl⟩
    cases v <;> simp only [PropertyValue.type, readValue, bind_eq_ok, pure_eq_ok, Prod.mk.injEq]
    case byte b => exact ⟨b, rest, rfl, ⟨rfl, rfl⟩, rfl⟩
    case int16 w => exact ⟨w, rest, packetReadUint16_eq_ok.mpr rfl, ⟨rfl, rfl⟩, rfl⟩
    case int32 w => exact ⟨w, rest, packetReadUint32_eq_ok.mpr rfl, ⟨rfl, rfl⟩, rfl⟩
    case varint w =>
      exact ⟨(w, _), rest, packetReadVarint_eq_ok.mpr ⟨hr, rfl, rfl⟩, ⟨rfl, rfl⟩, rfl⟩
    case binary d =>
      refine ⟨d, rest, packetReadBinary_eq_ok.mpr ⟨hr, rfl⟩, ⟨rfl, ?_⟩, rfl⟩
      simp [PropertyValue.bytes, UInt32.ofNat_add]
    case string d =>
      refine ⟨d, rest, packetReadString_eq_ok.mpr ⟨hr, rfl⟩, ⟨rfl, ?_⟩, rfl⟩
      simp [PropertyValue.bytes, UInt32.ofNat_add]
    case stringPair d d' =>
      refine ⟨d, stringBytes d' ++ rest, packetReadString_eq_ok.mpr ⟨hr.1, ?_⟩, d', rest,
        packetReadString_eq_ok.mpr ⟨hr.2, rfl⟩, ⟨rfl, ?_⟩, rfl⟩
      · exact List.append_assoc _ _ _
      · simp [PropertyValue.bytes, UInt32.ofNat_add, UInt32.add_assoc]

/-- **Reading follows the table.** -/
theorem propertyRead_eq (len : UInt32) : propertyRead len = packetReadVarint >>= fun r =>
    match propType r.1 with
    | none => fail Rc.malformedPacket
    | some t => readValue t >>= fun v => pure (⟨r.1, v.1⟩, len - 1 - v.2) := by
  have hsub : ∀ a b c : UInt32, a - (b + c) = a - b - c := fun a b c => by grind
  unfold propertyRead
  congr 1
  funext ⟨identifier, bytes⟩
  simp only
  split <;> simp [propType, readValue, hsub]

theorem propType_lt {identifier : Nat} {t : PropType} (h : propType identifier = some t) :
    identifier < 128 := by
  unfold propType at h
  split at h <;> first | omega | cases h

theorem varintBytes_small {word : Nat} (h : word < 128) : varintBytes word = [UInt8.ofNat word] := by
  rw [varintBytes, varintDigits, if_pos h]

/-- A property is read from its bytes and from no others, and the counter goes down by
their number. -/
theorem propertyRead_eq_ok {len len' : UInt32} {s rest : Bytes} {p : Property} :
    propertyRead len s = .ok ((p, len'), rest) ↔
      p.Readable ∧ len' = len - UInt32.ofNat p.bytes.length ∧ s = p.bytes ++ rest := by
  have hcount : ∀ n : Nat, len - UInt32.ofNat (n + 1) = len - 1 - UInt32.ofNat n := by
    intro n
    rw [UInt32.ofNat_add]
    grind
  rw [propertyRead_eq, bind_eq_ok]
  constructor
  · rintro ⟨⟨identifier, k⟩, s', hs, h⟩
    obtain ⟨-, -, rfl⟩ := packetReadVarint_eq_ok.mp hs
    cases ht : propType identifier with
    | none => simp only [ht] at h; exact absurd h fail_ne_ok
    | some t =>
      simp only [ht, bind_eq_ok, pure_eq_ok, Prod.mk.injEq] at h
      obtain ⟨⟨v, n⟩, s'', hv, ⟨rfl, rfl⟩, rfl⟩ := h
      obtain ⟨rfl, hr, rfl, rfl⟩ := readValue_eq_ok.mp hv
      refine ⟨⟨ht, hr⟩, ?_, ?_⟩
      · rw [Property.bytes, List.length_cons, hcount]
      · rw [varintBytes_small (propType_lt ht)]
        rfl
  · rintro ⟨⟨ht, hr⟩, rfl, rfl⟩
    have hlt := propType_lt ht
    refine ⟨(p.identifier, _), p.value.bytes ++ rest,
      packetReadVarint_eq_ok.mpr ⟨by omega, rfl, by rw [varintBytes_small hlt]; rfl⟩, ?_⟩
    simp only [ht, bind_eq_ok, pure_eq_ok, Prod.mk.injEq]
    refine ⟨(p.value, _), rest, readValue_eq_ok.mpr ⟨rfl, hr, rfl, rfl⟩, ⟨rfl, ?_⟩, rfl⟩
    rw [Property.bytes, List.length_cons, hcount]

def writeValue (value : PropertyValue) : PropType → PacketWriter Unit
  | .byte => packetWriteByte value.i8
  | .int16 => packetWriteUint16 value.i16
  | .int32 => packetWriteUint32 value.i32
  | .varint => packetWriteVarint value.varintValue
  | .binary => do
    packetWriteUint16 (UInt16.ofNat value.bin.length)
    packetWriteBytes value.bin
  | .string => packetWriteString value.s (UInt16.ofNat value.s.length)
  | .stringPair => do
    packetWriteString value.name (UInt16.ofNat value.name.length)
    packetWriteString value.s (UInt16.ofNat value.s.length)

theorem writeValue_eq {value : PropertyValue} (h : value.Readable) :
    writeValue value value.type = emit .abort value.bytes := by
  cases value with
  | byte v => rfl
  | int16 v => exact packetWriteUint16_eq v
  | int32 v => exact packetWriteUint32_eq v
  | varint v => exact packetWriteVarint_eq h
  | binary v =>
    show (packetWriteUint16 _ >>= fun _ => packetWriteBytes v) = _
    rw [packetWriteUint16_eq]
    exact emit_append _ _
  | string v => exact packetWriteString_eq h.1
  | stringPair n v =>
    show (packetWriteString n (UInt16.ofNat n.length) >>= fun _ =>
      packetWriteString v (UInt16.ofNat v.length)) = _
    rw [packetWriteString_eq h.1.1, packetWriteString_eq h.2.1]
    exact emit_append _ _

/-- **Writing follows the table.** -/
theorem propertyWrite_eq (p : Property) : propertyWrite p =
    packetWriteVarint p.identifier >>= fun _ =>
      (propType p.identifier).elim (Writer.fail (.code Rc.inval)) (writeValue p.value) := by
  obtain ⟨identifier, value⟩ := p
  unfold propertyWrite
  congr 1
  funext _
  simp only
  split <;> simp [propType, writeValue]

theorem propertyWrite_readable {p : Property} (h : p.Readable) :
    propertyWrite p = emit .abort p.bytes := by
  have hlt := propType_lt h.1
  rw [propertyWrite_eq, h.1, packetWriteVarint_eq (by omega), varintBytes_small hlt,
    Option.elim_some, writeValue_eq h.2]
  exact emit_append _ _

def valueLength (value : PropertyValue) : PropType → Nat
  | .byte => 1
  | .int16 => 2
  | .int32 => 4
  | .varint => packetVarintBytes value.varintValue
  | .binary => 2 + value.bin.length
  | .string => 2 + value.s.length
  | .stringPair => 2 + value.name.length + (2 + value.s.length)

theorem valueLength_eq {value : PropertyValue} (h : value.Readable) :
    valueLength value value.type = value.bytes.length := by
  cases value with
  | byte v => rfl
  | int16 v => rfl
  | int32 v => rfl
  | varint v => exact (length_varintBytes h).symm
  | binary v => exact (length_stringBytes v).symm
  | string v => exact (length_stringBytes v).symm
  | stringPair n v =>
    rw [PropertyValue.bytes, List.length_append, length_stringBytes, length_stringBytes]
    rfl

theorem identifierLength_eq (v : Nat) :
    (if v < 128 then 2 else if v < 16384 then 3 else if v < 2097152 then 4
      else if v < 268435456 then 5 else 0) = if 2 ^ 28 ≤ v then 0 else 1 + packetVarintBytes v := by
  unfold packetVarintBytes
  split_ifs <;> omega

/-- **Measuring follows the table.** -/
theorem propertyGetLength_eq (p : Property) : propertyGetLength p =
    (propType p.identifier).elim 0 fun t =>
      if t = .varint ∧ 2 ^ 28 ≤ p.value.varintValue then 0 else 1 + valueLength p.value t := by
  obtain ⟨identifier, value⟩ := p
  unfold propertyGetLength
  simp only
  split <;> simp [propType, valueLength, identifierLength_eq] <;> omega

theorem propertyGetLength_readable {p : Property} (h : p.Readable) :
    propertyGetLength p = p.bytes.length := by
  have hsmall : ¬ (p.value.type = .varint ∧ 2 ^ 28 ≤ p.value.varintValue) := by
    rintro ⟨ht, hbig⟩
    have hr := h.2
    cases hv : p.value <;> rw [hv] at ht hr hbig <;> cases ht
    exact Nat.not_lt.mpr hbig hr
  rw [propertyGetLength_eq, h.1, Option.elim_some, if_neg hsmall, valueLength_eq h.2,
    Property.bytes, List.length_cons, Nat.add_comm]

end Packet

end AdaptiveMqtt
