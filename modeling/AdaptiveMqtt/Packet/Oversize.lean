import AdaptiveMqtt.Packet.Publish

/-!
# The maximum packet size

`packet__check_oversize` compares the remaining length and the digits of its encoding with
`maximum_packet_size`, and leaves out the command byte: a PUBLISH that is one byte too long
gets through, and no other.
-/

namespace AdaptiveMqtt.Packet

open Lib Writer MqttProp

/-! ## The size of a PUBLISH -/

/-- `packetlen` of `send__real_publish`. -/
def publishRemaining (protocol : Protocol) (args : PublishArgs) : Nat :=
  let proplen := (propertyGetLengthAll args.cmsgProps + propertyGetLengthAll args.storeProps +
    propertyGetLengthAll (expiryProps args.expiryInterval)) % 2 ^ 32
  (2 + (args.topic.getD []).length + args.payloadlen + (if args.qos.toNat > 0 then 2 else 0) +
    (if protocol = .mqtt5 ∧ packetVarintBytes proplen ≤ 4 then
      proplen + packetVarintBytes proplen else 0)) % 2 ^ 32

/-- The packet with its fixed header. -/
def publishSize (protocol : Protocol) (args : PublishArgs) : Nat :=
  publishRemaining protocol args + 1 + packetVarintBytes (publishRemaining protocol args)

section Size

variable {mosq : Sender} {args : PublishArgs} {command : UInt8} {remaining payloadlen : Nat}
  {pubOrNot : Bool}

theorem packetAlloc_length {r : Nat × Sink UInt8}
    (h : packetAlloc command remaining payloadlen pubOrNot = .ok r) :
    r.1 = remaining + 1 + packetVarintBytes remaining := by
  unfold packetAlloc at h
  simp only [length_remainingBytes] at h
  split at h
  · cases h
  · split at h
    · cases h
    · cases h
      rfl

theorem packetAlloc_avoids :
    packetAlloc command remaining payloadlen pubOrNot ≠ .error (.code Rc.oversizePacket) :=
  fun h => absurd (packetAlloc_error_iff.mp h).1 (by decide)

end Size

/-! ## No writer reports the size -/

section Avoids

abbrev AvoidsOversize (w : PacketWriter Unit) : Prop := Avoids (.code Rc.oversizePacket) w

theorem avoids_bytes (bytes : Bytes) : AvoidsOversize (emit .abort bytes) := by
  have habort : Halt.abort ≠ .code Rc.oversizePacket := fun h => nomatch h
  exact avoids_emit habort bytes

theorem avoids_varintLoop (left word : Nat) : AvoidsOversize (writeVarintLoop left word) := by
  induction left generalizing word with
  | zero => exact avoids_fail (by decide)
  | succ left ih =>
    unfold writeVarintLoop
    refine avoids_bind (avoids_bytes _) fun _ => ?_
    split
    · exact ih _
    · exact avoids_pure ()

theorem avoids_varint (word : Nat) : AvoidsOversize (packetWriteVarint word) :=
  avoids_varintLoop 5 word

theorem avoids_uint16 (word : UInt16) : AvoidsOversize (packetWriteUint16 word) := by
  rw [packetWriteUint16_eq]
  exact avoids_bytes _

theorem avoids_uint32 (word : UInt32) : AvoidsOversize (packetWriteUint32 word) := by
  rw [packetWriteUint32_eq]
  exact avoids_bytes _

theorem avoids_string (str : Bytes) (length : UInt16) :
    AvoidsOversize (packetWriteString str length) :=
  avoids_bind (avoids_uint16 _) fun _ => avoids_bytes _

theorem avoids_value (value : PropertyValue) (t : PropType) :
    AvoidsOversize (writeValue value t) := by
  cases t with
  | byte => exact avoids_bytes _
  | int16 => exact avoids_uint16 _
  | int32 => exact avoids_uint32 _
  | varint => exact avoids_varint _
  | binary => exact avoids_bind (avoids_uint16 _) fun _ => avoids_bytes _
  | string => exact avoids_string _ _
  | stringPair => exact avoids_bind (avoids_string _ _) fun _ => avoids_string _ _

theorem avoids_property (p : Property) : AvoidsOversize (propertyWrite p) := by
  rw [propertyWrite_eq]
  refine avoids_bind (avoids_varint _) fun _ => ?_
  cases propType p.identifier with
  | none => exact avoids_fail (by decide)
  | some t => exact avoids_value p.value t

theorem avoids_properties (properties : List Property) :
    AvoidsOversize (propertyWriteAll properties false) :=
  avoids_forM avoids_property properties

theorem avoids_publish (protocol : Protocol) (proplen : Nat) (args : PublishArgs) :
    AvoidsOversize (writePublish protocol proplen args) := by
  have hprops : AvoidsOversize (if protocol = .mqtt5 then
      packetWriteVarint proplen >>= fun _ => propertyWriteAll args.cmsgProps false >>= fun _ =>
        propertyWriteAll args.storeProps false >>= fun _ =>
          propertyWriteAll (expiryProps args.expiryInterval) false else pure ()) := by
    split
    · refine avoids_bind (avoids_varint _) fun _ => ?_
      refine avoids_bind (avoids_properties _) fun _ => ?_
      exact avoids_bind (avoids_properties _) fun _ => avoids_properties _
    · exact avoids_pure ()
  have hrest : AvoidsOversize (if args.qos.toNat > 0 then
      packetWriteUint16 args.mid >>= fun _ => if protocol = .mqtt5 then
      packetWriteVarint proplen >>= fun _ => propertyWriteAll args.cmsgProps false >>= fun _ =>
        propertyWriteAll args.storeProps false >>= fun _ =>
          propertyWriteAll (expiryProps args.expiryInterval) false else pure ()
      else if protocol = .mqtt5 then
      packetWriteVarint proplen >>= fun _ => propertyWriteAll args.cmsgProps false >>= fun _ =>
        propertyWriteAll args.storeProps false >>= fun _ =>
          propertyWriteAll (expiryProps args.expiryInterval) false else pure ()) := by
    split
    · exact avoids_bind (avoids_uint16 _) fun _ => hprops
    · exact hprops
  unfold writePublish
  cases args.topic with
  | some topic => exact avoids_bind (avoids_string _ _) fun _ => hrest
  | none => exact avoids_bind (avoids_uint16 _) fun _ => hrest

end Avoids

/-! ## The check -/

section Check

variable {mosq : Sender} {args : PublishArgs} {remaining M : Nat}

/-- When the check refuses: the sum of the length and its digits is an `uint32_t`. -/
theorem packetCheckOversize_iff (hpos : 0 < M) :
    packetCheckOversize M remaining ≠ Rc.success ↔
      M < (remaining + packetVarintBytes remaining) % 2 ^ 32 := by
  unfold packetCheckOversize
  rw [if_neg (by omega)]
  split
  · exact ⟨fun _ => ‹_›, fun _ => by decide⟩
  · exact ⟨fun h => absurd rfl h, fun h => absurd h ‹_›⟩

theorem sendRealPublish_refused (hpos : 0 < mosq.maximumPacketSize)
    (h : mosq.maximumPacketSize < (publishRemaining mosq.protocol args +
      packetVarintBytes (publishRemaining mosq.protocol args)) % 2 ^ 32) :
    sendRealPublish mosq args = .error (.code Rc.oversizePacket) :=
  if_pos ((packetCheckOversize_iff hpos).mpr h)

/-- Behind the check nothing speaks of the size, and a packet is as long as its header says. -/
theorem sendRealPublish_passed (hpos : 0 < mosq.maximumPacketSize)
    (h : ¬ mosq.maximumPacketSize < (publishRemaining mosq.protocol args +
      packetVarintBytes (publishRemaining mosq.protocol args)) % 2 ^ 32) :
    sendRealPublish mosq args ≠ .error (.code Rc.oversizePacket) ∧
      ∀ packet, sendRealPublish mosq args = .ok packet →
        packet.packetLength = publishSize mosq.protocol args := by
  obtain ⟨proplen, kept, hrun⟩ : ∃ proplen kept, sendRealPublish mosq args =
      packetAlloc (publishCommand args.dup args.qos args.retain)
        (publishRemaining mosq.protocol args) args.payloadlen true >>= fun r =>
      writePublish mosq.protocol proplen kept r.2 >>= fun w =>
      .ok ⟨publishCommand args.dup args.qos args.retain, args.mid, r.1, args.payloadlen, true,
        w.2.written, args.payload, 0, 0⟩ :=
    ⟨_, _, if_neg (mt (packetCheckOversize_iff hpos).mp h)⟩
  rw [hrun]
  cases halloc : packetAlloc (publishCommand args.dup args.qos args.retain)
      (publishRemaining mosq.protocol args) args.payloadlen true with
  | error halt =>
    refine ⟨fun e => ?_, fun _ e => nomatch e⟩
    cases e
    exact packetAlloc_avoids halloc
  | ok r =>
    have hlength := packetAlloc_length halloc
    cases hwrite : writePublish mosq.protocol proplen kept r.2 with
    | error halt =>
      simp only [bind, Except.bind, hwrite]
      refine ⟨fun e => ?_, fun _ e => nomatch e⟩
      cases e
      exact avoids_publish _ _ _ _ hwrite
    | ok w =>
      simp only [bind, Except.bind, hwrite]
      refine ⟨(fun e => nomatch e), ?_⟩
      rintro packet ⟨⟩
      exact hlength

/-- **The packet size is respected but for one byte**: the check leaves the command byte out,
so a PUBLISH of `M + 1` bytes is let through; and the sum it compares wraps around. -/
theorem maximum_packet_size_iff (mosq : Sender) (args : PublishArgs)
    (hpos : 0 < mosq.maximumPacketSize) (hword : mosq.maximumPacketSize < 2 ^ 32) :
    ((∀ packet, sendRealPublish mosq args = .ok packet →
        packet.packetLength ≤ mosq.maximumPacketSize) ∧
      (mosq.maximumPacketSize < publishSize mosq.protocol args →
        sendRealPublish mosq args = .error (.code Rc.oversizePacket))) ↔
      publishSize mosq.protocol args ≠ mosq.maximumPacketSize + 1 ∧
        (2 ^ 32 < publishSize mosq.protocol args →
          mosq.maximumPacketSize + 2 ^ 32 + 1 < publishSize mosq.protocol args) := by
  have hsize : publishSize mosq.protocol args = publishRemaining mosq.protocol args +
      packetVarintBytes (publishRemaining mosq.protocol args) + 1 := by
    unfold publishSize
    omega
  have hremaining : publishRemaining mosq.protocol args < 2 ^ 32 := Nat.mod_lt _ (by omega)
  have hdigits : packetVarintBytes (publishRemaining mosq.protocol args) ≤ 5 := by
    unfold packetVarintBytes
    split_ifs <;> omega
  by_cases h : mosq.maximumPacketSize < (publishRemaining mosq.protocol args +
      packetVarintBytes (publishRemaining mosq.protocol args)) % 2 ^ 32
  · have hrun := sendRealPublish_refused hpos h
    rw [hrun]
    exact ⟨fun _ => by omega, fun _ => ⟨(fun _ e => nomatch e), fun _ => rfl⟩⟩
  · obtain ⟨hrun, hpacket⟩ := sendRealPublish_passed hpos h
    constructor
    · rintro ⟨-, hover⟩
      have hle : publishSize mosq.protocol args ≤ mosq.maximumPacketSize := by
        by_contra hlt
        exact hrun (hover (by omega))
      omega
    · rintro ⟨hone, hwrap⟩
      have hle : publishSize mosq.protocol args ≤ mosq.maximumPacketSize := by omega
      refine ⟨fun packet hok => ?_, fun hlt => by omega⟩
      rw [hpacket packet hok]
      exact hle

def Sender.limited (maximumPacketSize : Nat) : Sender :=
  { Sender.idle .mqtt5 with maximumPacketSize }

theorem maximum_packet_size_greeting :
    (∀ packet, sendRealPublish (Sender.limited 22) PublishArgs.greeting = .ok packet →
        packet.packetLength ≤ 22) ∧
      (22 < publishSize .mqtt5 PublishArgs.greeting →
        sendRealPublish (Sender.limited 22) PublishArgs.greeting =
          .error (.code Rc.oversizePacket)) :=
  (maximum_packet_size_iff (Sender.limited 22) PublishArgs.greeting (by decide) (by decide)).mpr
    (by decide)

/-- With a limit of 21, the PUBLISH of 22 bytes is sent. -/
theorem packet_one_byte_too_long :
    ¬ ∀ packet, sendRealPublish (Sender.limited 21) PublishArgs.greeting = .ok packet →
      packet.packetLength ≤ 21 := by
  intro h
  have hlength : (sendRealPublish (Sender.limited 21) PublishArgs.greeting).toOption.map
      OutPacket.packetLength = some 22 := by decide +kernel
  cases hsend : sendRealPublish (Sender.limited 21) PublishArgs.greeting with
  | error halt =>
    rw [hsend] at hlength
    cases hlength
  | ok packet =>
    rw [hsend] at hlength
    have hle := h packet hsend
    have heq : packet.packetLength = 22 := Option.some.inj hlength
    omega

end Check

end AdaptiveMqtt.Packet
