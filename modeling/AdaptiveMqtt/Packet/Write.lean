import AdaptiveMqtt.Packet.Datatypes

/-!
# Writing packets to the network

`packet__alloc`, `packet__queue` and `packet__write` of `lib/packet_mosq.c`. A PUBLISH is
allocated without room for its payload. Every call of `packet__write` gives it a buffer with
the header it has and the payload that `payload_store` points to at that time, and goes on
where the last call stopped.

`unsent` is what the queue still owes the network. Whatever the network takes, the bytes
sent and the bytes unsent stay together the same (`packetWrites_sent`), as long as nobody
writes to the payloads.
-/

namespace AdaptiveMqtt.Packet

open Lib Writer

/-! ## The model -/

/-- `struct mosquitto__packet`, as far as an outgoing packet uses it. `payloadStore` is an
address, `pubOrNot` marks a PUBLISH. -/
structure OutPacket where
  command : UInt8
  mid : UInt16
  packetLength : Nat
  payloadLength : Nat
  pubOrNot : Bool
  payload : Bytes
  payloadStore : Nat
  pos : Nat
  toProcess : Nat
  deriving DecidableEq, Repr

/-- The digits of a remaining length. The `do … while` ends after five. -/
def remainingBytes : Nat → Nat → Bytes
  | 0, _ => []
  | left + 1, remainingLength =>
    let byte := UInt8.ofNat (remainingLength % 128)
    if remainingLength / 128 > 0 then (byte ||| 0x80) :: remainingBytes left (remainingLength / 128)
    else [byte]

/-- `packet__alloc`: the length of the packet and its buffer with the fixed header. The
buffer is the allocation, which for a PUBLISH is short of the payload: a write past it is
an `abort` here, although the assertions of the source compare with `packet_length`. -/
def packetAlloc (command : UInt8) (remainingLength payloadLength : Nat) (pubOrNot : Bool) :
    Except Halt (Nat × Sink UInt8) :=
  let digits := remainingBytes 5 remainingLength
  if digits.length = 5 then .error (.code Rc.payloadSize)
  else
    let packetLength := remainingLength + 1 + digits.length
    let room := if pubOrNot then packetLength - payloadLength else packetLength
    match emit .abort (command :: digits) (Sink.alloc UInt8 room) with
    | .error halt => .error halt
    | .ok (_, buffer) => .ok (packetLength, buffer)

def packetCheckOversize (maximumPacketSize remainingLength : Nat) : Rc :=
  if maximumPacketSize = 0 then Rc.success
  else if (remainingLength + packetVarintBytes remainingLength) % 2 ^ 32 > maximumPacketSize then
    Rc.oversizePacket
  else Rc.success

abbrev Memory := Nat → UInt8

/-- `memcpy` from an address. -/
def copy (mem : Memory) (addr len : Nat) : Bytes := (List.range len).map fun i => mem (addr + i)

/-- What `net__write` does: it takes some bytes, at least one, or none yet. -/
inductive WriteEvent where
  | takes (more : Nat)
  | again
  deriving DecidableEq, Repr

/-- The rest of `struct mosquitto` that sending uses, with the bytes that were sent. -/
structure Sender where
  sock : Bool
  state : ClientState
  protocol : Protocol
  maximumPacketSize : Nat
  currentOutPacket : Option OutPacket
  outPacket : List OutPacket
  sent : Bytes
  deriving DecidableEq, Repr

def packetQueue (mosq : Sender) (packet : OutPacket) : Sender :=
  { mosq with outPacket := mosq.outPacket ++
      [{ packet with pos := 0, toProcess := packet.packetLength }] }

/-- The new buffer of a PUBLISH. -/
def attachPayload (mem : Memory) (packet : OutPacket) : OutPacket :=
  let header := packet.payload.take (packet.packetLength - packet.payloadLength)
  if packet.pubOrNot then
    { packet with payload := header ++ copy mem packet.payloadStore packet.payloadLength }
  else packet

/-- The `while` over `to_process`: whether the packet is out, and what is left. Every turn
sends a byte at least. -/
def writePacket : Nat → OutPacket → Bytes → List WriteEvent →
    Bool × OutPacket × Bytes × List WriteEvent
  | 0, packet, sent, net => (true, packet, sent, net)
  | left + 1, packet, sent, net =>
    if packet.toProcess > 0 then
      match net with
      | [] => (false, packet, sent, [])
      | .again :: net => (false, packet, sent, net)
      | .takes more :: net =>
        let writeLength := min (more + 1) packet.toProcess
        writePacket left { packet with toProcess := packet.toProcess - writeLength
                                       pos := packet.pos + writeLength }
          (sent ++ (packet.payload.drop packet.pos).take writeLength) net
    else (true, packet, sent, net)

/-- The `while` over `current_out_packet`. -/
def writeQueue (mem : Memory) : List OutPacket → OutPacket → Bytes → List WriteEvent →
    (Option OutPacket × List OutPacket × Bytes) × List WriteEvent
  | queue, packet, sent, net =>
    match writePacket packet.toProcess (attachPayload mem packet) sent net with
    | (false, packet, sent, net) => ((some packet, queue, sent), net)
    | (true, _, sent, net) =>
      match queue with
      | [] => ((none, [], sent), net)
      | next :: queue => writeQueue mem queue next sent net

/-- The packet that is being sent, and those behind it. -/
def currentPacket (mosq : Sender) : Option OutPacket × List OutPacket :=
  match mosq.currentOutPacket, mosq.outPacket with
  | none, packet :: queue => (some packet, queue)
  | current, queue => (current, queue)

def packetWrite (mem : Memory) (mosq : Sender) (net : List WriteEvent) :
    (Rc × Sender) × List WriteEvent :=
  if !mosq.sock then ((Rc.noConn, mosq), net)
  else
    let mosq := { mosq with currentOutPacket := (currentPacket mosq).1
                            outPacket := (currentPacket mosq).2 }
    if mosq.state = .connectPending then ((Rc.success, mosq), net)
    else
      match mosq.currentOutPacket with
      | none => ((Rc.success, mosq), net)
      | some packet =>
        let ((current, queue, sent), net) := writeQueue mem mosq.outPacket packet mosq.sent net
        ((Rc.success, { mosq with currentOutPacket := current, outPacket := queue, sent }), net)

def packetWrites : List Memory → Sender → List WriteEvent → Sender × List WriteEvent
  | [], mosq, net => (mosq, net)
  | mem :: mems, mosq, net =>
    let r := packetWrite mem mosq net
    packetWrites mems r.1.2 r.2

/-! ## The fixed header -/

theorem remainingBytes_eq : ∀ {n left word : Nat}, word < 128 ^ (n + 1) → n < left →
    remainingBytes left word = varintDigits (n + 1) word
  | n, 0, _, _, hleft => absurd hleft (Nat.not_lt_zero n)
  | 0, left + 1, word, hword, _ => by
    have hsmall : word < 128 := by simpa using hword
    rw [remainingBytes, varintDigits, if_pos hsmall]
    simp only [Nat.div_eq_of_lt hsmall, Nat.mod_eq_of_lt hsmall, gt_iff_lt, Nat.lt_irrefl, if_false]
  | n + 1, left + 1, word, hword, hleft => by
    rw [remainingBytes, varintDigits]
    by_cases hsmall : word < 128
    · simp only [Nat.div_eq_of_lt hsmall, Nat.mod_eq_of_lt hsmall, gt_iff_lt, Nat.lt_irrefl,
        if_false, if_pos hsmall]
    · have hpos : word / 128 > 0 := by omega
      have hdiv : word / 128 < 128 ^ (n + 1) := by
        rw [Nat.div_lt_iff_lt_mul (by omega)]
        exact hword
      simp only [hpos, if_true, if_neg hsmall]
      rw [remainingBytes_eq hdiv (by omega), or_top_bit (Nat.mod_lt _ (by omega))]

theorem length_remainingBytes_succ (left remaining : Nat) :
    (remainingBytes (left + 1) remaining).length =
      if remaining < 128 then 1 else (remainingBytes left (remaining / 128)).length + 1 := by
  rw [remainingBytes]
  by_cases h : remaining < 128
  · simp [h, Nat.div_eq_of_lt h]
  · have hpos : remaining / 128 > 0 := by omega
    simp [h, hpos]

/-- `packet__alloc` writes as many digits as `packet__varint_bytes` counts. -/
theorem length_remainingBytes (remaining : Nat) :
    (remainingBytes 5 remaining).length = packetVarintBytes remaining := by
  have hzero : ∀ word, (remainingBytes 0 word).length = 0 := fun _ => rfl
  simp only [length_remainingBytes_succ, hzero]
  unfold packetVarintBytes
  split_ifs <;> omega

theorem packetAlloc_error_iff {command : UInt8} {remaining payloadLength : Nat} {pubOrNot : Bool}
    {rc : Rc} : packetAlloc command remaining payloadLength pubOrNot = .error (.code rc) ↔
      rc = Rc.payloadSize ∧ 2 ^ 28 ≤ remaining := by
  have hfive : (remainingBytes 5 remaining).length = 5 ↔ 2 ^ 28 ≤ remaining := by
    rw [length_remainingBytes, packetVarintBytes]
    split_ifs <;> omega
  rw [← hfive]
  unfold packetAlloc
  simp only
  constructor
  · intro h
    split at h
    · cases h
      exact ⟨rfl, ‹_›⟩
    · split at h
      · rename_i halt hemit
        cases h
        have habort : Halt.abort ≠ .code rc := fun h => nomatch h
        exact absurd hemit (avoids_emit habort _ _)
      · cases h
  · rintro ⟨rfl, h⟩
    exact if_pos h

/-- **The buffer of a packet** begins with its fixed header and has room for the rest. -/
theorem packetAlloc_eq (command : UInt8) {remainingLength payloadLength : Nat} {pubOrNot : Bool}
    (hlen : remainingLength < 2 ^ 28) (hpay : payloadLength ≤ remainingLength)
    (hpub : pubOrNot = false → payloadLength = 0) :
    ∃ buffer, packetAlloc command remainingLength payloadLength pubOrNot =
        .ok (remainingLength + 1 + (varintBytes remainingLength).length, buffer) ∧
      buffer.written = command :: varintBytes remainingLength ∧
      buffer.size = 1 + (varintBytes remainingLength).length + (remainingLength - payloadLength) := by
  have hdigits : remainingBytes 5 remainingLength = varintBytes remainingLength :=
    remainingBytes_eq hlen (by omega)
  have hfour : (varintBytes remainingLength).length ≤ 4 := by
    rw [length_varintBytes hlen, packetVarintBytes]
    split_ifs <;> omega
  have hroom : (if pubOrNot = true then
      remainingLength + 1 + (varintBytes remainingLength).length - payloadLength
      else remainingLength + 1 + (varintBytes remainingLength).length) =
      1 + (varintBytes remainingLength).length + (remainingLength - payloadLength) := by
    cases pubOrNot with
    | true =>
      rw [if_pos rfl]
      omega
    | false =>
      rw [if_neg (by decide), hpub rfl]
      omega
  have hfit : (Sink.alloc UInt8 (1 + (varintBytes remainingLength).length +
      (remainingLength - payloadLength))).written.length +
      (command :: varintBytes remainingLength).length ≤ (Sink.alloc UInt8 (1 +
        (varintBytes remainingLength).length + (remainingLength - payloadLength))).size := by
    simp only [Sink.alloc, List.length_nil, List.length_cons]
    omega
  refine ⟨(Sink.alloc UInt8 _).push _ hfit, ?_, rfl, rfl⟩
  unfold packetAlloc
  simp only [hdigits, hroom]
  rw [if_neg (by omega), emit_fits hfit]

/-! ## What is owed to the network -/

/-- A packet in the queue: its position is right and its buffer has the header, or all of it. -/
structure OutPacket.Ready (packet : OutPacket) : Prop where
  position : packet.pos + packet.toProcess = packet.packetLength
  publish : packet.pubOrNot = true → packet.payloadLength ≤ packet.packetLength ∧
    packet.packetLength - packet.payloadLength ≤ packet.payload.length
  other : packet.pubOrNot = false → packet.payload.length = packet.packetLength

/-- The bytes of a packet on the network. -/
def image (mem : Memory) (packet : OutPacket) : Bytes := (attachPayload mem packet).payload

/-- The bytes of a packet that are not sent. -/
def unsentOf (mem : Memory) (packet : OutPacket) : Bytes := (image mem packet).drop packet.pos

def Sender.packets (mosq : Sender) : List OutPacket :=
  mosq.currentOutPacket.toList ++ mosq.outPacket

/-- The bytes that wait. -/
def unsent (mem : Memory) (mosq : Sender) : Bytes := mosq.packets.flatMap (unsentOf mem)

/-- The memory still holds the payload. -/
def Keeps (mem mem' : Memory) (packet : OutPacket) : Prop :=
  copy mem' packet.payloadStore packet.payloadLength =
    copy mem packet.payloadStore packet.payloadLength

section Image

variable {mem mem' : Memory} {packet : OutPacket}

theorem length_copy (mem : Memory) (addr len : Nat) : (copy mem addr len).length = len := by
  rw [copy, List.length_map, List.length_range]

theorem attachPayload_publish (hp : packet.pubOrNot = true) : attachPayload mem packet =
    { packet with payload := packet.payload.take (packet.packetLength - packet.payloadLength) ++
                    copy mem packet.payloadStore packet.payloadLength } := if_pos hp

theorem attachPayload_other (hp : packet.pubOrNot = false) : attachPayload mem packet = packet :=
  if_neg (by rw [hp]; decide)

theorem length_image (hr : packet.Ready) : (image mem packet).length = packet.packetLength := by
  unfold image
  cases hp : packet.pubOrNot with
  | true =>
    have := hr.publish hp
    rw [attachPayload_publish hp]
    simp only [List.length_append, List.length_take, length_copy]
    omega
  | false =>
    rw [attachPayload_other hp]
    exact hr.other hp

theorem attachPayload_ready (hr : packet.Ready) : (attachPayload mem packet).Ready := by
  cases hp : packet.pubOrNot with
  | true =>
    have hb := hr.publish hp
    rw [attachPayload_publish hp]
    refine ⟨hr.position, fun _ => ⟨hb.1, ?_⟩, fun h => absurd (hp.symm.trans h) (by decide)⟩
    simp only [List.length_append, List.length_take, length_copy]
    omega
  | false =>
    rw [attachPayload_other hp]
    exact hr

theorem image_attachPayload (hr : packet.Ready) :
    image mem (attachPayload mem' packet) = image mem packet := by
  unfold image
  cases hp : packet.pubOrNot with
  | true =>
    have hb := hr.publish hp
    have hp' : (attachPayload mem' packet).pubOrNot = true := by
      rw [attachPayload_publish hp]
      exact hp
    rw [attachPayload_publish hp', attachPayload_publish hp, attachPayload_publish hp]
    simp only
    rw [List.take_append_of_le_length (by rw [List.length_take]; omega), List.take_take,
      Nat.min_self]
  | false => rw [attachPayload_other hp]

theorem image_keeps (hk : Keeps mem mem' packet) : image mem' packet = image mem packet := by
  unfold image
  cases hp : packet.pubOrNot with
  | true =>
    rw [attachPayload_publish hp, attachPayload_publish hp]
    simp only
    rw [hk]
  | false => rw [attachPayload_other hp, attachPayload_other hp]

@[simp] theorem attachPayload_pos : (attachPayload mem packet).pos = packet.pos := by
  unfold attachPayload
  simp only
  split <;> rfl

@[simp] theorem attachPayload_toProcess :
    (attachPayload mem packet).toProcess = packet.toProcess := by
  unfold attachPayload
  simp only
  split <;> rfl

@[simp] theorem attachPayload_payloadStore :
    (attachPayload mem packet).payloadStore = packet.payloadStore := by
  unfold attachPayload
  simp only
  split <;> rfl

@[simp] theorem attachPayload_payloadLength :
    (attachPayload mem packet).payloadLength = packet.payloadLength := by
  unfold attachPayload
  simp only
  split <;> rfl

def OutPacket.seek (packet : OutPacket) (n : Nat) : OutPacket :=
  { packet with toProcess := packet.toProcess - n, pos := packet.pos + n }

theorem OutPacket.Ready.seek (hr : packet.Ready) {n : Nat} (hn : n ≤ packet.toProcess) :
    (packet.seek n).Ready := by
  have := hr.position
  exact ⟨by simp only [OutPacket.seek]; omega, hr.publish, hr.other⟩

theorem image_seek (n : Nat) : image mem (packet.seek n) = image mem packet := by
  unfold image
  cases hp : packet.pubOrNot with
  | true =>
    have hp' : (packet.seek n).pubOrNot = true := hp
    rw [attachPayload_publish hp', attachPayload_publish hp]
    rfl
  | false =>
    have hp' : (packet.seek n).pubOrNot = false := hp
    rw [attachPayload_other hp', attachPayload_other hp]
    rfl

theorem length_unsentOf (hr : packet.Ready) : (unsentOf mem packet).length = packet.toProcess := by
  have := hr.position
  rw [unsentOf, List.length_drop, length_image hr]
  omega

end Image

/-! ## Partial writes -/

/-- How often the network takes something. -/
def takings (net : List WriteEvent) : Nat := net.countP (· ≠ .again)

/-- How often it takes nothing. -/
def agains (net : List WriteEvent) : Nat := net.countP (· = .again)

theorem takings_takes (more : Nat) (net : List WriteEvent) :
    takings (.takes more :: net) = takings net + 1 := by
  simp [takings]

theorem agains_takes (more : Nat) (net : List WriteEvent) :
    agains (.takes more :: net) = agains net := by
  simp [agains]

/-- What the writer may do with the packets that wait. -/
structure Advances (mem : Memory) (packets : List OutPacket) (sent : Bytes) (net : List WriteEvent)
    (packets' : List OutPacket) (sent' : Bytes) (net' : List WriteEvent) : Prop where
  ready : ∀ p ∈ packets', p.Ready
  origin : ∀ p' ∈ packets', ∃ p ∈ packets,
    p'.payloadStore = p.payloadStore ∧ p'.payloadLength = p.payloadLength
  bytes : sent' ++ packets'.flatMap (unsentOf mem) = sent ++ packets.flatMap (unsentOf mem)
  pace : takings net + sent.length ≤ takings net' + sent'.length
  agains : agains net' ≤ agains net

/-- The writer stopped because the network takes no more. -/
def Stopped (mem : Memory) (net : List WriteEvent) (packets' : List OutPacket)
    (net' : List WriteEvent) : Prop :=
  packets'.flatMap (unsentOf mem) ≠ [] ∧ (agains net' < agains net ∨ net' = [])

section Writes

variable {mem mem' : Memory} {packet : OutPacket} {queue : List OutPacket}

/-- The loop over a packet whose buffer is complete. -/
theorem writePacket_seek : ∀ (left : Nat) (packet : OutPacket) (sent : Bytes)
    (net : List WriteEvent), packet.toProcess ≤ left →
    ∃ n net', n ≤ packet.toProcess ∧
      writePacket left packet sent net = (decide (packet.toProcess = n), packet.seek n,
        sent ++ (packet.payload.drop packet.pos).take n, net') ∧
      takings net ≤ takings net' + n ∧ agains net' ≤ agains net ∧
      (n < packet.toProcess → agains net' < agains net ∨ net' = [])
  | 0, packet, sent, net, hleft => by
    refine ⟨0, net, Nat.zero_le _, ?_, Nat.le_refl _, Nat.le_refl _, by omega⟩
    rw [writePacket, decide_eq_true (by omega), List.take_zero, List.append_nil]
    rfl
  | left + 1, packet, sent, net, hleft => by
    unfold writePacket
    by_cases hpos : packet.toProcess > 0
    · rw [if_pos hpos]
      match net with
      | [] =>
        refine ⟨0, [], Nat.zero_le _, ?_, Nat.le_refl _, Nat.le_refl _, fun _ => .inr rfl⟩
        simp only [List.take_zero, List.append_nil]
        rw [decide_eq_false (by omega)]
        rfl
      | .again :: net =>
        refine ⟨0, net, Nat.zero_le _, ?_, ?_, ?_, fun _ => .inl ?_⟩
        · simp only [List.take_zero, List.append_nil]
          rw [decide_eq_false (by omega)]
          rfl
        · simp [takings]
        · simp [agains]
        · simp [agains]
      | .takes more :: net =>
        simp only
        obtain ⟨k, hk⟩ : ∃ k, min (more + 1) packet.toProcess = k := ⟨_, rfl⟩
        have hk1 : 1 ≤ k ∧ k ≤ packet.toProcess := by omega
        obtain ⟨n, net', hn, hrun, htake, hag, hstop⟩ := writePacket_seek left
          (packet.seek k) (sent ++ (packet.payload.drop packet.pos).take k) net
          (by simp only [OutPacket.seek]; omega)
        have hto : (packet.seek k).toProcess = packet.toProcess - k := rfl
        rw [hto] at hn hrun hstop
        refine ⟨k + n, net', by omega, ?_, ?_, ?_, fun h => ?_⟩
        · rw [hk]
          refine hrun.trans ?_
          have hdec : decide (packet.toProcess - k = n) = decide (packet.toProcess = k + n) :=
            decide_eq_decide.mpr (by omega)
          have hseek : (packet.seek k).seek n = packet.seek (k + n) := by
            simp only [OutPacket.seek, Nat.sub_sub, Nat.add_assoc]
          have hbytes : (packet.payload.drop packet.pos).take k ++
              ((packet.seek k).payload.drop (packet.seek k).pos).take n =
              (packet.payload.drop packet.pos).take (k + n) := by
            simp only [OutPacket.seek]
            rw [List.take_add, List.drop_drop]
          rw [hdec, hseek, List.append_assoc, hbytes]
        · rw [takings_takes]
          omega
        · rw [agains_takes]
          exact hag
        · rw [agains_takes]
          exact hstop (by omega)
    · rw [if_neg hpos]
      refine ⟨0, net, Nat.zero_le _, ?_, Nat.le_refl _, Nat.le_refl _, by omega⟩
      rw [decide_eq_true (by omega), List.take_zero, List.append_nil]
      rfl

/-- A call begins with a complete buffer, and ends with the packet out or the network full. -/
theorem writePacket_advances (sent : Bytes) (net : List WriteEvent) (hr : packet.Ready)
    (hk : Keeps mem mem' packet) :
    ∃ (out : Bool) (p' : OutPacket) (sent' : Bytes) (net' : List WriteEvent),
      writePacket packet.toProcess (attachPayload mem' packet) sent net = (out, p', sent', net') ∧
      Advances mem [packet] sent net (if out then [] else [p']) sent' net' ∧
      (out = false → unsentOf mem p' ≠ [] ∧ (agains net' < agains net ∨ net' = [])) := by
  have hready : (attachPayload mem' packet).Ready := attachPayload_ready hr
  have himage : (attachPayload mem' packet).payload = image mem packet := image_keeps hk
  obtain ⟨n, net', hn, hrun, htake, hag, hstop⟩ := writePacket_seek packet.toProcess
    (attachPayload mem' packet) sent net (by rw [attachPayload_toProcess])
  rw [attachPayload_toProcess] at hn hrun hstop
  rw [himage, attachPayload_pos] at hrun
  have hunsent : unsentOf mem ((attachPayload mem' packet).seek n) =
      (unsentOf mem packet).drop n := by
    rw [unsentOf, image_seek, image_attachPayload hr, unsentOf, List.drop_drop]
    simp only [OutPacket.seek, attachPayload_pos]
  have hlen : (unsentOf mem packet).length = packet.toProcess := length_unsentOf hr
  refine ⟨_, _, _, _, hrun, ⟨?_, ?_, ?_, ?_, hag⟩, fun hout => ⟨?_, ?_⟩⟩
  · intro p hp
    split at hp
    · cases hp
    · obtain rfl := List.mem_singleton.mp hp
      exact hready.seek (by rw [attachPayload_toProcess]; exact hn)
  · intro p hp
    split at hp
    · cases hp
    · obtain rfl := List.mem_singleton.mp hp
      exact ⟨packet, List.mem_singleton_self _, attachPayload_payloadStore,
        attachPayload_payloadLength⟩
  · show sent ++ (unsentOf mem packet).take n ++ _ = _
    rw [List.append_assoc]
    congr 1
    split
    · rename_i hout
      have hall : n = packet.toProcess := (of_decide_eq_true hout).symm
      rw [List.take_of_length_le (by omega)]
      simp
    · simp only [List.flatMap_cons, List.flatMap_nil, List.append_nil]
      rw [hunsent, List.take_append_drop]
  · have hlen' : (sent ++ ((image mem packet).drop packet.pos).take n).length =
        sent.length + n := by
      rw [List.length_append, List.length_take]
      change sent.length + min n (unsentOf mem packet).length = _
      omega
    omega
  · have hlt : packet.toProcess ≠ n := of_decide_eq_false hout
    rw [hunsent, Ne, List.drop_eq_nil_iff]
    omega
  · have hlt : packet.toProcess ≠ n := of_decide_eq_false hout
    exact hstop (by omega)

/-- What happens to a part of the queue happens to the queue. -/
theorem Advances.append {packets packets' : List OutPacket} {sent sent' : Bytes}
    {net net' : List WriteEvent} (ha : Advances mem packets sent net packets' sent' net')
    (hq : ∀ p ∈ queue, p.Ready) :
    Advances mem (packets ++ queue) sent net (packets' ++ queue) sent' net' where
  ready p hp := (List.mem_append.mp hp).elim (ha.ready p) (hq p)
  origin p hp := (List.mem_append.mp hp).elim
    (fun hp => (ha.origin p hp).imp fun q hq => ⟨List.mem_append_left _ hq.1, hq.2⟩)
    (fun hp => ⟨p, List.mem_append_right _ hp, rfl, rfl⟩)
  bytes := by
    rw [List.flatMap_append, List.flatMap_append, ← List.append_assoc, ha.bytes, List.append_assoc]
  pace := ha.pace
  agains := ha.agains

theorem Advances.trans {packets packets₁ packets₂ : List OutPacket} {sent sent₁ sent₂ : Bytes}
    {net net₁ net₂ : List WriteEvent} (ha : Advances mem packets sent net packets₁ sent₁ net₁)
    (hb : Advances mem packets₁ sent₁ net₁ packets₂ sent₂ net₂) :
    Advances mem packets sent net packets₂ sent₂ net₂ where
  ready := hb.ready
  origin p hp := by
    obtain ⟨q, hq, hs, hl⟩ := hb.origin p hp
    obtain ⟨r, hr, hs', hl'⟩ := ha.origin q hq
    exact ⟨r, hr, hs.trans hs', hl.trans hl'⟩
  bytes := hb.bytes.trans ha.bytes
  pace := by
    have := ha.pace
    have := hb.pace
    omega
  agains := hb.agains.trans ha.agains

theorem writeQueue_advances : ∀ (queue : List OutPacket) (packet : OutPacket) (sent : Bytes)
    (net : List WriteEvent), (∀ p ∈ packet :: queue, p.Ready) →
    (∀ p ∈ packet :: queue, Keeps mem mem' p) →
    ∃ current queue' sent' net',
      writeQueue mem' queue packet sent net = ((current, queue', sent'), net') ∧
      Advances mem (packet :: queue) sent net (Option.toList current ++ queue') sent' net' ∧
      (Option.toList current ++ queue' = [] ∨
        Stopped mem net (Option.toList current ++ queue') net') := by
  intro queue
  induction queue with
  | nil =>
    intro packet sent net hr hk
    obtain ⟨out, p', sent', net', hrun, hadv, hstop⟩ := writePacket_advances sent net
      (hr packet List.mem_cons_self) (hk packet List.mem_cons_self)
    unfold writeQueue
    rw [hrun]
    cases out with
    | true => exact ⟨none, [], sent', net', rfl, hadv, .inl rfl⟩
    | false =>
      obtain ⟨hne, hnet⟩ := hstop rfl
      exact ⟨some p', [], sent', net', rfl, hadv, .inr ⟨by simpa using hne, hnet⟩⟩
  | cons next queue ih =>
    intro packet sent net hr hk
    obtain ⟨out, p', sent', net', hrun, hadv, hstop⟩ := writePacket_advances sent net
      (hr packet List.mem_cons_self) (hk packet List.mem_cons_self)
    have hqueue := hadv.append fun p hp => hr p (List.mem_cons_of_mem packet hp)
    unfold writeQueue
    rw [hrun]
    cases out with
    | true =>
      obtain ⟨current, queue', sent₂, net₂, hrun₂, hadv₂, hstop₂⟩ := ih next sent' net'
        (fun p hp => hr p (List.mem_cons_of_mem packet hp))
        (fun p hp => hk p (List.mem_cons_of_mem packet hp))
      refine ⟨current, queue', sent₂, net₂, hrun₂, hqueue.trans hadv₂, ?_⟩
      refine hstop₂.imp id fun hs => ⟨hs.1, ?_⟩
      have := hadv.agains
      exact hs.2.imp (fun h => by omega) id
    | false =>
      obtain ⟨hne, hnet⟩ := hstop rfl
      refine ⟨some p', next :: queue, sent', net', rfl, hqueue, .inr ⟨?_, hnet⟩⟩
      simp only [Option.toList_some, List.singleton_append, List.flatMap_cons]
      exact fun h => hne (List.append_eq_nil_iff.mp h).1

theorem Advances.refl {packets : List OutPacket} {sent : Bytes} {net : List WriteEvent}
    (hr : ∀ p ∈ packets, p.Ready) : Advances mem packets sent net packets sent net :=
  ⟨hr, fun p hp => ⟨p, hp, rfl, rfl⟩, rfl, Nat.le_refl _, Nat.le_refl _⟩

theorem currentPacket_packets (mosq : Sender) :
    (currentPacket mosq).1.toList ++ (currentPacket mosq).2 = mosq.packets := by
  unfold currentPacket Sender.packets
  split
  · rename_i hc hq
    rw [hc, hq]
    rfl
  · rfl

/-- **A call of `packet__write`** sends the beginning of what waits. On a connection it ends
with nothing left or the network full. -/
theorem packetWrite_advances {mosq : Sender} (net : List WriteEvent)
    (hr : ∀ p ∈ mosq.packets, p.Ready) (hk : ∀ p ∈ mosq.packets, Keeps mem mem' p) :
    ∃ rc mosq' net', packetWrite mem' mosq net = ((rc, mosq'), net') ∧
      Advances mem mosq.packets mosq.sent net mosq'.packets mosq'.sent net' ∧
      mosq'.sock = mosq.sock ∧ mosq'.state = mosq.state ∧
      (mosq.sock = true → mosq.state ≠ .connectPending →
        mosq'.packets = [] ∨ Stopped mem net mosq'.packets net') := by
  have hcurrent := currentPacket_packets mosq
  unfold packetWrite
  by_cases hs : mosq.sock = true
  · rw [if_neg (by rw [hs]; decide)]
    simp only
    by_cases hp : mosq.state = .connectPending
    · rw [if_pos hp]
      refine ⟨_, _, _, rfl, ?_, rfl, rfl, fun _ h => absurd hp h⟩
      show Advances mem mosq.packets mosq.sent net
        ((currentPacket mosq).1.toList ++ (currentPacket mosq).2) mosq.sent net
      rw [hcurrent]
      exact .refl hr
    · rw [if_neg hp]
      cases hc : (currentPacket mosq).1 with
      | none =>
        refine ⟨_, _, _, rfl, ?_, rfl, rfl, fun _ _ => .inl ?_⟩
        · show Advances mem mosq.packets mosq.sent net
            ((none : Option OutPacket).toList ++ (currentPacket mosq).2) mosq.sent net
          rw [← hc, hcurrent]
          exact .refl hr
        · show (none : Option OutPacket).toList ++ (currentPacket mosq).2 = []
          unfold currentPacket at hc ⊢
          split at hc
          · cases hc
          · rename_i hnot
            simp only at hc
            cases hq : mosq.outPacket with
            | nil => simp only [Option.toList_none, List.append_nil]
            | cons p queue => exact absurd hq (hnot p queue hc)
      | some packet =>
        rw [hc] at hcurrent
        have hpackets : packet :: (currentPacket mosq).2 = mosq.packets := hcurrent
        rw [← hpackets] at hr hk ⊢
        obtain ⟨current, queue', sent', net', hrun, hadv, hstop⟩ :=
          writeQueue_advances (currentPacket mosq).2 packet mosq.sent net hr hk
        simp only [hrun]
        exact ⟨_, _, _, rfl, hadv, rfl, rfl, fun _ _ => hstop⟩
  · rw [if_pos (by simpa using hs)]
    exact ⟨_, _, _, rfl, .refl hr, rfl, rfl, fun h => absurd h hs⟩

/-- **Over every sequence of calls** the bytes sent and the bytes that wait are the same. -/
theorem packetWrites_advances : ∀ (calls : List Memory) {mosq : Sender} (net : List WriteEvent),
    (∀ p ∈ mosq.packets, p.Ready) → (∀ mem' ∈ calls, ∀ p ∈ mosq.packets, Keeps mem mem' p) →
    Advances mem mosq.packets mosq.sent net (packetWrites calls mosq net).1.packets
      (packetWrites calls mosq net).1.sent (packetWrites calls mosq net).2
  | [], mosq, net, hr, hk => .refl hr
  | mem' :: calls, mosq, net, hr, hk => by
    obtain ⟨rc, mosq', net', hrun, hadv, -, -, -⟩ :=
      packetWrite_advances net hr (hk mem' List.mem_cons_self)
    unfold packetWrites
    rw [hrun]
    refine hadv.trans (packetWrites_advances calls net' hadv.ready fun mem₁ hm p hp => ?_)
    obtain ⟨q, hq, hstore, hlen⟩ := hadv.origin p hp
    rw [Keeps, hstore, hlen]
    exact hk mem₁ (List.mem_cons_of_mem mem' hm) q hq

theorem packetWrites_sent {calls : List Memory} {mosq : Sender} {net : List WriteEvent}
    (hr : ∀ p ∈ mosq.packets, p.Ready) (hk : ∀ mem' ∈ calls, ∀ p ∈ mosq.packets, Keeps mem mem' p) :
    (packetWrites calls mosq net).1.sent ++ unsent mem (packetWrites calls mosq net).1 =
      mosq.sent ++ unsent mem mosq := (packetWrites_advances calls net hr hk).bytes

/-- Everything goes out once the network takes as often as bytes wait, and `packet__write` is
called once more than it takes nothing. -/
theorem packetWrites_done : ∀ (calls : List Memory) {mosq : Sender} {net : List WriteEvent},
    (∀ p ∈ mosq.packets, p.Ready) → (∀ mem' ∈ calls, ∀ p ∈ mosq.packets, Keeps mem mem' p) →
    mosq.sock = true → mosq.state ≠ .connectPending →
    (unsent mem mosq).length ≤ takings net → agains net < calls.length →
    (packetWrites calls mosq net).1.packets = []
  | [], mosq, net, _, _, _, _, _, hcalls => absurd hcalls (Nat.not_lt_zero _)
  | mem' :: calls, mosq, net, hr, hk, hsock, hstate, htake, hcalls => by
    obtain ⟨rc, mosq', net', hrun, hadv, hsock', hstate', hstop⟩ :=
      packetWrite_advances net hr (hk mem' List.mem_cons_self)
    have hk' : ∀ mem₁ ∈ calls, ∀ p ∈ mosq'.packets, Keeps mem mem₁ p := by
      intro mem₁ hm p hp
      obtain ⟨q, hq, hstore, hlen⟩ := hadv.origin p hp
      rw [Keeps, hstore, hlen]
      exact hk mem₁ (List.mem_cons_of_mem mem' hm) q hq
    have hbytes := congrArg List.length hadv.bytes
    have hpace := hadv.pace
    change (unsent mem mosq).length ≤ _ at htake
    simp only [List.length_append] at hbytes
    change _ + (unsent mem mosq').length = _ + (unsent mem mosq).length at hbytes
    unfold packetWrites
    rw [hrun]
    show (packetWrites calls mosq' net').1.packets = []
    rcases hstop hsock hstate with hdone | ⟨hne, hag | hnil⟩
    · have hlast := @packetWrites_advances mem calls mosq' net' hadv.ready hk'
      rw [List.eq_nil_iff_forall_not_mem]
      intro p hp
      obtain ⟨q, hq, -⟩ := hlast.origin p hp
      rw [hdone] at hq
      cases hq
    · exact packetWrites_done calls hadv.ready hk' (hsock'.trans hsock)
        (by rw [hstate']; exact hstate) (by omega) (by simp only [List.length_cons] at hcalls; omega)
    · rw [hnil, show takings [] = 0 from rfl] at hpace
      have hpos : 0 < (unsent mem mosq').length := List.length_pos_iff.mpr hne
      omega

end Writes

end AdaptiveMqtt.Packet
