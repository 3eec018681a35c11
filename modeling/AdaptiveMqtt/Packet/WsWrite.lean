import AdaptiveMqtt.Packet.Write

/-!
# Writing packets to a websocket

The branch `LWS_CALLBACK_SERVER_WRITEABLE` of `callback_mqtt` in `src/websockets.c`. The
writer moves a packet up by `LWS_PRE` inside its own buffer and hands that to `lws_write`.
It never looks at `payload_store`, so what follows the header of a PUBLISH is whatever the
memory holds there.

The memory is one address space: a buffer is an address, and `memmove` writes to the bytes
from there on, whoever owns them.
-/

namespace AdaptiveMqtt.Packet

open Lib

/-! ## The model -/

def memmove (mem : Memory) (dst src len : Nat) : Memory := fun a =>
  if dst ≤ a ∧ a < dst + len then mem (src + (a - dst)) else mem a

/-- `struct mosquitto__packet` of a websockets client. `payload` is the address of the buffer. -/
structure WsPacket where
  command : UInt8
  mid : UInt16
  packetLength : Nat
  payloadLength : Nat
  pubOrNot : Bool
  payload : Nat
  payloadStore : Nat
  pos : Nat
  toProcess : Nat
  deriving DecidableEq, Repr

/-- What `lws_send_pipe_choked` and `lws_write` answer in a turn of the loop. -/
inductive LwsEvent where
  | choked
  | fails
  | takes (count : Nat)
  deriving DecidableEq, Repr

/-- The rest of `struct mosquitto` that the callback uses, with the memory and the bytes that
libwebsockets took. -/
structure WsSender where
  state : ClientState
  currentOutPacket : Option WsPacket
  outPacket : List WsPacket
  mem : Memory
  sent : Bytes

section Model

variable (lwsPre : Nat)

/-- The first time a packet is dealt with it is moved into position. -/
def wsPosition (mem : Memory) (packet : WsPacket) : Memory × WsPacket :=
  if packet.pos = 0 ∧ packet.toProcess = packet.packetLength then
    (memmove mem (packet.payload + lwsPre) packet.payload packet.packetLength,
      { packet with pos := packet.pos + lwsPre })
  else (mem, packet)

/-- The `while` over `current_out_packet`. -/
def wsWriteQueue : List WsPacket → WsPacket → Memory → Bytes → List LwsEvent →
    Option WsPacket × List WsPacket × Memory × Bytes
  | queue, packet, mem, sent, lws =>
    match lws with
    | [] | .choked :: _ => (some packet, queue, mem, sent)
    | .fails :: _ =>
      let (mem, packet) := wsPosition lwsPre mem packet
      (some packet, queue, mem, sent)
    | .takes count :: lws =>
      let (mem, packet) := wsPosition lwsPre mem packet
      let ucount := min count packet.toProcess
      let sent := sent ++ copy mem (packet.payload + packet.pos) ucount
      let packet := { packet with toProcess := packet.toProcess - ucount
                                  pos := packet.pos + ucount }
      if packet.toProcess > 0 then (some packet, queue, mem, sent)
      else
        match queue with
        | [] => (none, [], mem, sent)
        | next :: queue => wsWriteQueue queue next mem sent lws

/-- The packet that is being sent, and those behind it. -/
def wsCurrentPacket (mosq : WsSender) : Option WsPacket × List WsPacket :=
  match mosq.currentOutPacket, mosq.outPacket with
  | none, packet :: queue => (some packet, queue)
  | current, queue => (current, queue)

/-- `LWS_CALLBACK_SERVER_WRITEABLE`, after the messages in flight and in the queue were
written to the packets: what it returns, and the client. -/
def callbackWriteable (mosq : WsSender) (lws : List LwsEvent) : Int × WsSender :=
  let rc := if mosq.state = .disconnectWs ∨ mosq.state = .disconnecting ∨ mosq.state = .disused
    then -1 else 0
  match wsCurrentPacket mosq with
  | (none, queue) => (rc, { mosq with currentOutPacket := none, outPacket := queue })
  | (some packet, queue) =>
    let (current, queue, mem, sent) := wsWriteQueue lwsPre queue packet mosq.mem mosq.sent lws
    (rc, { mosq with currentOutPacket := current, outPacket := queue, mem, sent })

end Model

def WsSender.packets (mosq : WsSender) : List WsPacket :=
  mosq.currentOutPacket.toList ++ mosq.outPacket

/-! ## Buffers -/

/-- The bytes of a packet that its buffer is for. A PUBLISH is allocated without room for
its payload. -/
def WsPacket.held (w : WsPacket) : Nat :=
  if w.pubOrNot then w.packetLength - w.payloadLength else w.packetLength

/-- Two pieces of memory have no byte in common. -/
def Separate (a m b n : Nat) : Prop := a + m ≤ b ∨ b + n ≤ a

section Buffers

variable {mem : Memory} {a b n : Nat}

theorem copy_eq_iff {mem' : Memory} :
    copy mem' a n = copy mem b n ↔ ∀ i, i < n → mem' (a + i) = mem (b + i) := by
  unfold copy
  rw [List.map_inj_left]
  simp only [List.mem_range]

theorem copy_memmove_self (dst src len : Nat) : copy (memmove mem dst src len) dst len =
    copy mem src len := by
  rw [copy_eq_iff]
  intro i hi
  rw [memmove, if_pos ⟨by omega, by omega⟩, Nat.add_sub_cancel_left]

theorem copy_memmove_separate {dst src len : Nat} (h : Separate dst len a n) :
    copy (memmove mem dst src len) a n = copy mem a n := by
  unfold Separate at h
  rw [copy_eq_iff]
  intro i hi
  rw [memmove, if_neg (by omega)]

theorem take_copy {k : Nat} (h : k ≤ n) : (copy mem a n).take k = copy mem a k := by
  rw [copy, copy, ← List.map_take, List.take_range, Nat.min_eq_left h]

theorem drop_copy (k : Nat) : (copy mem a n).drop k = copy mem (a + k) (n - k) := by
  refine List.ext_getElem (by simp [copy]) fun i h₁ h₂ => ?_
  simp only [copy, List.getElem_drop, List.getElem_map, List.getElem_range, Nat.add_assoc]

end Buffers

/-! ## What is owed to libwebsockets -/

/-- The bytes of a packet that are not sent, as the memory has them. -/
def wsUnsentOf (mem : Memory) (w : WsPacket) : Bytes := copy mem (w.payload + w.pos) w.toProcess

/-- The bytes that wait. -/
def wsUnsent (mem : Memory) (packets : List WsPacket) : Bytes := packets.flatMap (wsUnsentOf mem)

/-- No packet touches another while it is moved and sent. -/
structure WsApart (lwsPre : Nat) (packets : List WsPacket) : Prop where
  position : ∀ w ∈ packets, w.pos + w.toProcess ≤ lwsPre + w.packetLength
  apart : packets.Pairwise fun w w' =>
    Separate w.payload (lwsPre + w.packetLength) w'.payload (lwsPre + w'.packetLength)

def WsPacket.Later (w' w : WsPacket) : Prop := ∃ pos toProcess, w' = { w with pos, toProcess }

section Owed

variable {lwsPre : Nat} {mem : Memory} {w : WsPacket}

theorem wsPosition_spec (mem : Memory) (hw : w.pos + w.toProcess ≤ lwsPre + w.packetLength) :
    (wsPosition lwsPre mem w).2.pos + (wsPosition lwsPre mem w).2.toProcess ≤
        lwsPre + w.packetLength ∧
      (wsPosition lwsPre mem w).2.Later w ∧
      wsUnsentOf (wsPosition lwsPre mem w).1 (wsPosition lwsPre mem w).2 = wsUnsentOf mem w ∧
      ∀ w' : WsPacket, w'.pos + w'.toProcess ≤ lwsPre + w'.packetLength →
        Separate w.payload (lwsPre + w.packetLength) w'.payload (lwsPre + w'.packetLength) →
        wsUnsentOf (wsPosition lwsPre mem w).1 w' = wsUnsentOf mem w' := by
  unfold wsPosition
  by_cases hnew : w.pos = 0 ∧ w.toProcess = w.packetLength
  · rw [if_pos hnew]
    obtain ⟨hpos, hlen⟩ := hnew
    refine ⟨by simp only; omega, ⟨_, _, rfl⟩, ?_, fun w' hw' hsep => ?_⟩
    · simp only [wsUnsentOf, hpos, hlen, Nat.zero_add, Nat.add_zero]
      exact copy_memmove_self _ _ _
    · unfold Separate at hsep
      refine copy_memmove_separate ?_
      unfold Separate
      omega
  · rw [if_neg hnew]
    exact ⟨hw, ⟨_, _, rfl⟩, rfl, fun _ _ _ => rfl⟩

theorem WsApart.tail {queue : List WsPacket} (h : WsApart lwsPre (w :: queue)) :
    WsApart lwsPre queue :=
  ⟨fun w' hw' => h.position w' (List.mem_cons_of_mem w hw'), h.apart.of_cons⟩

theorem WsApart.later {queue : List WsPacket} (h : WsApart lwsPre (w :: queue)) {w' : WsPacket}
    (hl : w'.Later w) (hpos : w'.pos + w'.toProcess ≤ lwsPre + w.packetLength) :
    WsApart lwsPre (w' :: queue) := by
  obtain ⟨pos, toProcess, rfl⟩ := hl
  obtain ⟨hhead, htail⟩ := List.pairwise_cons.mp h.apart
  refine ⟨fun x hx => ?_, List.pairwise_cons.mpr ⟨hhead, htail⟩⟩
  rcases List.mem_cons.mp hx with rfl | hx
  · exact hpos
  · exact h.position x (List.mem_cons_of_mem w hx)

/-- Moving a packet changes nothing of what waits. -/
theorem wsUnsent_wsPosition (mem : Memory) {queue : List WsPacket}
    (h : WsApart lwsPre (w :: queue)) :
    wsUnsentOf (wsPosition lwsPre mem w).1 (wsPosition lwsPre mem w).2 = wsUnsentOf mem w ∧
      wsUnsent (wsPosition lwsPre mem w).1 queue = wsUnsent mem queue ∧
      WsApart lwsPre ((wsPosition lwsPre mem w).2 :: queue) ∧
      (wsPosition lwsPre mem w).2.Later w := by
  obtain ⟨hpos, hlater, hself, hother⟩ :=
    wsPosition_spec mem (h.position w List.mem_cons_self)
  refine ⟨hself, List.flatMap_congr fun w' hw' => ?_, h.later hlater hpos, hlater⟩
  exact hother w' (h.position w' (List.mem_cons_of_mem w hw'))
    ((List.pairwise_cons.mp h.apart).1 w' hw')

theorem WsPacket.Later.trans {w₁ w₂ : WsPacket} (h : w₂.Later w₁) (h₁ : w₁.Later w) :
    w₂.Later w := by
  obtain ⟨pos, toProcess, rfl⟩ := h
  obtain ⟨pos₁, toProcess₁, rfl⟩ := h₁
  exact ⟨pos, toProcess, rfl⟩

/-- What a part of the loop may do with the packets that wait. -/
structure WsAdvances (lwsPre : Nat) (mem : Memory) (packets : List WsPacket) (sent : Bytes)
    (mem' : Memory) (packets' : List WsPacket) (sent' : Bytes) : Prop where
  bytes : sent' ++ wsUnsent mem' packets' = sent ++ wsUnsent mem packets
  apart : WsApart lwsPre packets'
  origin : ∀ w' ∈ packets', ∃ w ∈ packets, w'.Later w

theorem WsAdvances.trans {packets packets₁ packets₂ : List WsPacket} {sent sent₁ sent₂ : Bytes}
    {mem₁ mem₂ : Memory} (h : WsAdvances lwsPre mem packets sent mem₁ packets₁ sent₁)
    (h₁ : WsAdvances lwsPre mem₁ packets₁ sent₁ mem₂ packets₂ sent₂) :
    WsAdvances lwsPre mem packets sent mem₂ packets₂ sent₂ where
  bytes := h₁.bytes.trans h.bytes
  apart := h₁.apart
  origin w₂ hw₂ := by
    obtain ⟨w₁, hw₁, hl₁⟩ := h₁.origin w₂ hw₂
    obtain ⟨w, hw, hl⟩ := h.origin w₁ hw₁
    exact ⟨w, hw, hl₁.trans hl⟩

def WsPacket.seek (w : WsPacket) (n : Nat) : WsPacket :=
  { w with toProcess := w.toProcess - n, pos := w.pos + n }

theorem wsUnsentOf_seek {n : Nat} (hn : n ≤ w.toProcess) :
    copy mem (w.payload + w.pos) n ++ wsUnsentOf mem (w.seek n) = wsUnsentOf mem w := by
  rw [wsUnsentOf, wsUnsentOf, ← take_copy hn]
  have hdrop : copy mem ((w.seek n).payload + (w.seek n).pos) (w.seek n).toProcess =
      (copy mem (w.payload + w.pos) w.toProcess).drop n := by
    rw [drop_copy]
    simp only [WsPacket.seek, Nat.add_assoc]
  rw [hdrop, List.take_append_drop]

/-- A turn that moves the packet and does not send. -/
theorem wsAdvances_position (mem : Memory) {queue : List WsPacket} (sent : Bytes)
    (h : WsApart lwsPre (w :: queue)) :
    WsAdvances lwsPre mem (w :: queue) sent (wsPosition lwsPre mem w).1
      ((wsPosition lwsPre mem w).2 :: queue) sent := by
  obtain ⟨hself, hqueue, hapart, hlater⟩ := wsUnsent_wsPosition mem h
  refine ⟨?_, hapart, fun w' hw' => ?_⟩
  · rw [wsUnsent, List.flatMap_cons, hself, ← wsUnsent, hqueue]
    rfl
  · rcases List.mem_cons.mp hw' with rfl | hw'
    · exact ⟨w, List.mem_cons_self, hlater⟩
    · exact ⟨w', List.mem_cons_of_mem w hw', _, _, rfl⟩

/-- Bytes that are taken. -/
theorem wsAdvances_seek {queue : List WsPacket} (sent : Bytes) {n : Nat} (hn : n ≤ w.toProcess)
    (h : WsApart lwsPre (w :: queue)) :
    WsAdvances lwsPre mem (w :: queue) sent mem (w.seek n :: queue)
      (sent ++ copy mem (w.payload + w.pos) n) := by
  have hpos := h.position w List.mem_cons_self
  refine ⟨?_, h.later ⟨_, _, rfl⟩ (by simp only [WsPacket.seek]; omega), fun w' hw' => ?_⟩
  · simp only [wsUnsent, List.flatMap_cons]
    rw [← wsUnsentOf_seek hn]
    simp only [List.append_assoc]
  · rcases List.mem_cons.mp hw' with rfl | hw'
    · exact ⟨w, List.mem_cons_self, _, _, rfl⟩
    · exact ⟨w', List.mem_cons_of_mem w hw', _, _, rfl⟩

/-- A packet that is out. -/
theorem wsAdvances_done {queue : List WsPacket} (sent : Bytes) (hdone : w.toProcess = 0)
    (h : WsApart lwsPre (w :: queue)) :
    WsAdvances lwsPre mem (w :: queue) sent mem queue sent := by
  refine ⟨?_, h.tail, fun w' hw' => ⟨w', List.mem_cons_of_mem w hw', _, _, rfl⟩⟩
  simp only [wsUnsent, List.flatMap_cons, wsUnsentOf, hdone]
  rfl

theorem WsAdvances.refl {packets : List WsPacket} (sent : Bytes) (h : WsApart lwsPre packets) :
    WsAdvances lwsPre mem packets sent mem packets sent :=
  ⟨rfl, h, fun w hw => ⟨w, hw, _, _, rfl⟩⟩

/-- The loop hands over the beginning of what waits. -/
theorem wsWriteQueue_advances (queue : List WsPacket) (w : WsPacket) (mem : Memory)
    (sent : Bytes) (lws : List LwsEvent) (h : WsApart lwsPre (w :: queue)) :
    ∃ current queue' mem' sent',
      wsWriteQueue lwsPre queue w mem sent lws = (current, queue', mem', sent') ∧
      WsAdvances lwsPre mem (w :: queue) sent mem' (Option.toList current ++ queue') sent' := by
  induction queue generalizing w mem sent lws with
  | nil =>
    have hmove := wsAdvances_position mem sent h
    unfold wsWriteQueue
    match lws with
    | [] | .choked :: _ => exact ⟨some w, [], mem, sent, rfl, .refl sent h⟩
    | .fails :: _ => exact ⟨_, _, _, _, rfl, hmove⟩
    | .takes count :: lws =>
      have hseek := hmove.trans (wsAdvances_seek sent (Nat.min_le_right count _) hmove.apart)
      simp only
      split
      · exact ⟨_, _, _, _, rfl, hseek⟩
      · rename_i hout
        exact ⟨none, [], _, _, rfl, hseek.trans (wsAdvances_done _
          (Nat.eq_zero_of_not_pos hout) hseek.apart)⟩
  | cons next queue ih =>
    have hmove := wsAdvances_position mem sent h
    unfold wsWriteQueue
    match lws with
    | [] | .choked :: _ => exact ⟨some w, next :: queue, mem, sent, rfl, .refl sent h⟩
    | .fails :: _ => exact ⟨_, _, _, _, rfl, hmove⟩
    | .takes count :: lws =>
      have hseek := hmove.trans (wsAdvances_seek sent (Nat.min_le_right count _) hmove.apart)
      simp only
      split
      · exact ⟨_, _, _, _, rfl, hseek⟩
      · rename_i hout
        have hnext := hseek.trans (wsAdvances_done _ (Nat.eq_zero_of_not_pos hout) hseek.apart)
        obtain ⟨current, queue', mem', sent', hrun, hadv⟩ := ih next _ _ lws hnext.apart
        exact ⟨current, queue', mem', sent', hrun, hnext.trans hadv⟩

theorem wsCurrentPacket_packets (mosq : WsSender) :
    (wsCurrentPacket mosq).1.toList ++ (wsCurrentPacket mosq).2 = mosq.packets := by
  unfold wsCurrentPacket WsSender.packets
  split
  · rename_i hc hq
    rw [hc, hq]
    rfl
  · rfl

/-- **A callback** hands over the beginning of what waits. -/
theorem callbackWriteable_advances {mosq : WsSender} (lws : List LwsEvent)
    (h : WsApart lwsPre mosq.packets) :
    let mosq' := (callbackWriteable lwsPre mosq lws).2
    WsAdvances lwsPre mosq.mem mosq.packets mosq.sent mosq'.mem mosq'.packets mosq'.sent := by
  have hpackets := wsCurrentPacket_packets mosq
  unfold callbackWriteable
  match hc : wsCurrentPacket mosq with
  | (none, queue) =>
    rw [hc] at hpackets
    show WsAdvances lwsPre mosq.mem mosq.packets mosq.sent mosq.mem
      ((none : Option WsPacket).toList ++ queue) mosq.sent
    rw [show (none : Option WsPacket).toList ++ queue = mosq.packets from hpackets]
    exact .refl _ h
  | (some packet, queue) =>
    rw [hc] at hpackets
    have hpackets : packet :: queue = mosq.packets := hpackets
    rw [← hpackets] at h ⊢
    obtain ⟨current, queue', mem', sent', hrun, hadv⟩ :=
      wsWriteQueue_advances queue packet mosq.mem mosq.sent lws h
    simp only [hrun]
    exact hadv

end Owed

/-! ## The two writers -/

/-- A packet of the other writer with the same fields, header and payload, just queued. -/
structure WsPacket.Equals (mem wmem : Memory) (p : OutPacket) (w : WsPacket) : Prop where
  command : w.command = p.command
  mid : w.mid = p.mid
  packetLength : w.packetLength = p.packetLength
  payloadLength : w.payloadLength = p.payloadLength
  pubOrNot : w.pubOrNot = p.pubOrNot
  pos : w.pos = 0
  toProcess : w.toProcess = w.packetLength
  buffer : copy wmem w.payload w.held = p.payload.take w.held
  store : copy wmem w.payloadStore w.payloadLength = copy mem p.payloadStore p.payloadLength

/-- What `malloc` promises for the buffers and the payloads. -/
structure WsLaid (lwsPre : Nat) (packets : List WsPacket) : Prop where
  buffers : packets.Pairwise fun w w' =>
    Separate w.payload (w.held + lwsPre) w'.payload (w'.held + lwsPre)
  stores : ∀ w ∈ packets, ∀ w' ∈ packets,
    Separate w.payload (w.held + lwsPre) w'.payloadStore w'.payloadLength

/-- Others leave the buffer of a packet and its payload alone. -/
def WsKeeps (lwsPre : Nat) (mem mem' : Memory) (w : WsPacket) : Prop :=
  copy mem' w.payload (w.held + lwsPre) = copy mem w.payload (w.held + lwsPre) ∧
    copy mem' w.payloadStore w.payloadLength = copy mem w.payloadStore w.payloadLength

/-- The runs of a client: callbacks, and whatever the broker does in between. -/
inductive WsRuns (lwsPre : Nat) (mosq₀ : WsSender) : WsSender → Prop
  | start : WsRuns lwsPre mosq₀ mosq₀
  | writeable {mosq : WsSender} (lws : List LwsEvent) : WsRuns lwsPre mosq₀ mosq →
      WsRuns lwsPre mosq₀ (callbackWriteable lwsPre mosq lws).2
  | others {mosq : WsSender} (mem : Memory) (state : ClientState) :
      (∀ w ∈ mosq.packets, WsKeeps lwsPre mosq.mem mem w) → WsRuns lwsPre mosq₀ mosq →
      WsRuns lwsPre mosq₀ { mosq with mem, state }

/-- Both writers send the same bytes for these packets, one perhaps more of them. -/
def WritersAgree (lwsPre : Nat) (mem : Memory) (packets : List OutPacket) : Prop :=
  ∀ (wmem : Memory) (wpackets : List WsPacket) (wstate : ClientState), WsLaid lwsPre wpackets →
    List.Forall₂ (WsPacket.Equals mem wmem) packets wpackets →
    ∀ ws, WsRuns lwsPre ⟨wstate, none, wpackets, wmem, []⟩ ws →
    ∀ (mosq : Sender) (calls : List Memory) (net : List WriteEvent),
      mosq.currentOutPacket = none → mosq.outPacket = packets → mosq.sent = [] →
      (∀ mem' ∈ calls, ∀ p ∈ packets, Keeps mem mem' p) →
      let tcp := (packetWrites calls mosq net).1
      (ws.sent <+: tcp.sent ∨ tcp.sent <+: ws.sent) ∧
        (ws.packets = [] → tcp.packets = [] → ws.sent = tcp.sent)

def OutPacket.Queued (p : OutPacket) : Prop := p.Ready ∧ p.pos = 0

section Agree

variable {lwsPre : Nat} {mem : Memory} {packets : List OutPacket}

theorem tcp_sent (hq : ∀ p ∈ packets, p.Queued) {mosq : Sender} {calls : List Memory}
    (net : List WriteEvent) (hc : mosq.currentOutPacket = none) (hout : mosq.outPacket = packets)
    (hsent : mosq.sent = []) (hk : ∀ mem' ∈ calls, ∀ p ∈ packets, Keeps mem mem' p) :
    (packetWrites calls mosq net).1.sent ++ unsent mem (packetWrites calls mosq net).1 =
      packets.flatMap (image mem) := by
  have hpackets : mosq.packets = packets := by
    rw [Sender.packets, hc, hout]
    rfl
  rw [packetWrites_sent (by rw [hpackets]; exact fun p hp => (hq p hp).1)
    (by rw [hpackets]; exact hk), hsent, List.nil_append, unsent, hpackets]
  refine List.flatMap_congr fun p hp => ?_
  rw [unsentOf, (hq p hp).2]
  rfl

/-- A packet without a payload has all its bytes in its buffer. -/
theorem wsUnsentOf_equals {wmem : Memory} {p : OutPacket} {w : WsPacket} (hq : p.Queued)
    (he : w.Equals mem wmem p) (hbare : p.pubOrNot = true → p.payloadLength = 0) :
    wsUnsentOf wmem w = image mem p := by
  have hbuf := he.buffer
  have hheld : w.held = w.packetLength := by
    unfold WsPacket.held
    split
    · rename_i hpub
      rw [he.payloadLength, hbare (he.pubOrNot ▸ hpub)]
      rfl
    · rfl
  rw [hheld] at hbuf
  rw [wsUnsentOf, he.pos, he.toProcess, Nat.add_zero, hbuf, he.packetLength]
  unfold image
  cases hpub : p.pubOrNot with
  | true =>
    rw [attachPayload_publish hpub, hbare hpub]
    simp [copy]
  | false =>
    rw [attachPayload_other hpub, List.take_of_length_le]
    rw [hq.1.other hpub]

/-- Along a run: what was sent and what waits are the packets, and their buffers hold them. -/
structure WsOwes (lwsPre : Nat) (total : Bytes) (mosq : WsSender) : Prop where
  bytes : mosq.sent ++ wsUnsent mosq.mem mosq.packets = total
  apart : WsApart lwsPre mosq.packets
  held : ∀ w ∈ mosq.packets, w.held = w.packetLength

theorem WsOwes.writeable {total : Bytes} {mosq : WsSender} (h : WsOwes lwsPre total mosq)
    (lws : List LwsEvent) : WsOwes lwsPre total (callbackWriteable lwsPre mosq lws).2 := by
  have hadv := callbackWriteable_advances lws h.apart
  refine ⟨hadv.bytes.trans h.bytes, hadv.apart, fun w' hw' => ?_⟩
  obtain ⟨w, hw, pos, toProcess, rfl⟩ := hadv.origin w' hw'
  exact h.held w hw

theorem WsOwes.others {total : Bytes} {mosq : WsSender} (h : WsOwes lwsPre total mosq)
    {mem' : Memory} (state : ClientState)
    (hk : ∀ w ∈ mosq.packets, WsKeeps lwsPre mosq.mem mem' w) :
    WsOwes lwsPre total { mosq with mem := mem', state } := by
  refine ⟨?_, h.apart, h.held⟩
  rw [← h.bytes]
  show mosq.sent ++ mosq.packets.flatMap (wsUnsentOf mem') = _
  congr 1
  refine List.flatMap_congr fun w hw => ?_
  have hsame := copy_eq_iff.mp (hk w hw).1
  have hpos := h.apart.position w hw
  rw [h.held w hw] at hsame
  unfold wsUnsentOf
  rw [copy_eq_iff]
  intro i hi
  rw [Nat.add_assoc]
  exact hsame (w.pos + i) (by omega)

theorem WsOwes.runs {total : Bytes} {mosq₀ mosq : WsSender} (h : WsOwes lwsPre total mosq₀)
    (hr : WsRuns lwsPre mosq₀ mosq) : WsOwes lwsPre total mosq := by
  induction hr with
  | start => exact h
  | writeable lws _ ih => exact ih.writeable lws
  | others mem state hk _ ih => exact ih.others state hk

/-- Two beginnings of one stream. -/
theorem comparable_of_append {a b c d s : Bytes} (h : a ++ b = s) (h' : c ++ d = s) :
    a <+: c ∨ c <+: a :=
  List.prefix_or_prefix_of_prefix (h ▸ List.prefix_append a b) (h' ▸ List.prefix_append c d)

/-- Without a payload to attach the writers send the same. -/
theorem writersAgree_of_bare (hq : ∀ p ∈ packets, p.Queued)
    (hbare : ∀ p ∈ packets, p.pubOrNot = true → p.payloadLength = 0) :
    WritersAgree lwsPre mem packets := by
  intro wmem wpackets wstate hlaid heq ws hruns mosq calls net hc hout hsent hk
  have hof : ∀ w ∈ wpackets, ∃ p ∈ packets, w.Equals mem wmem p := fun w hw => by
    obtain ⟨i, hi, rfl⟩ := List.getElem_of_mem hw
    have hlen := heq.length_eq
    exact ⟨packets[i], List.getElem_mem (by omega), heq.get (by omega) hi⟩
  have hheld : ∀ w ∈ wpackets, w.held = w.packetLength := by
    intro w hw
    obtain ⟨p, hp, he⟩ := hof w hw
    unfold WsPacket.held
    split
    · rename_i hpub
      rw [he.payloadLength, hbare p hp (he.pubOrNot ▸ hpub)]
      rfl
    · rfl
  have hunsent : wsUnsent wmem wpackets = packets.flatMap (image mem) := by
    clear hlaid hof hheld hruns hout hk
    induction heq with
    | nil => rfl
    | cons he _ ih =>
      rw [wsUnsent, List.flatMap_cons, List.flatMap_cons,
        wsUnsentOf_equals (hq _ List.mem_cons_self) he (hbare _ List.mem_cons_self)]
      congr 1
      exact ih (fun p hp => hq p (List.mem_cons_of_mem _ hp))
        fun p hp => hbare p (List.mem_cons_of_mem _ hp)
  have hstart : WsOwes lwsPre (packets.flatMap (image mem)) ⟨wstate, none, wpackets, wmem, []⟩ := by
    refine ⟨hunsent, ⟨fun w hw => ?_, ?_⟩, hheld⟩
    · obtain ⟨p, -, he⟩ := hof w hw
      rw [he.pos, he.toProcess]
      omega
    · refine hlaid.buffers.imp_of_mem fun {w w'} hw hw' hsep => ?_
      rw [hheld w hw, hheld w' hw', Nat.add_comm, Nat.add_comm w'.packetLength] at hsep
      exact hsep
  have hws := (hstart.runs hruns).bytes
  have htcp := tcp_sent hq net hc hout hsent hk
  refine ⟨comparable_of_append hws htcp, fun hnone hnone' => ?_⟩
  rw [hnone, wsUnsent, List.flatMap_nil, List.append_nil] at hws
  rw [unsent, hnone', List.flatMap_nil, List.append_nil] at htcp
  rw [hws, htcp]

/-! ## A payload that is not attached -/

/-- The bytes of a PUBLISH before its payload. -/
def OutPacket.held (p : OutPacket) : Nat :=
  if p.pubOrNot then p.packetLength - p.payloadLength else p.packetLength

theorem OutPacket.Ready.held_le {p : OutPacket} (hr : p.Ready) : p.held ≤ p.payload.length := by
  unfold OutPacket.held
  split
  · rename_i hpub
    exact (hr.publish hpub).2
  · rename_i hpub
    rw [hr.other (by simpa using hpub)]

theorem OutPacket.held_le (p : OutPacket) : p.held ≤ p.packetLength := by
  unfold OutPacket.held
  split
  · exact Nat.sub_le _ _
  · exact Nat.le_refl _

/-- The packet of number `i` in a memory of cells of size `cell`. -/
def OutPacket.placed (cell i : Nat) (p : OutPacket) : WsPacket where
  command := p.command
  mid := p.mid
  packetLength := p.packetLength
  payloadLength := p.payloadLength
  pubOrNot := p.pubOrNot
  payload := 2 * cell * i
  payloadStore := 2 * cell * i + cell
  pos := 0
  toProcess := p.packetLength

/-- The memory with these packets, and one byte wherever nothing was written. -/
def cells (mem : Memory) (cell : Nat) (fill : UInt8) (packets : List OutPacket) : Memory := fun a =>
  match packets[a / (2 * cell)]? with
  | none => fill
  | some p =>
    if a % (2 * cell) < cell then
      (p.payload.take p.held).getD (a % (2 * cell)) fill
    else (copy mem p.payloadStore p.payloadLength).getD (a % (2 * cell) - cell) fill

theorem cells_buffer {cell i k : Nat} {fill : UInt8} (hi : i < packets.length) (hk : k < cell) :
    cells mem cell fill packets (2 * cell * i + k) =
      (packets[i].payload.take packets[i].held).getD k fill := by
  have hdiv : (2 * cell * i + k) / (2 * cell) = i := by
    rw [Nat.mul_add_div (by omega), Nat.div_eq_of_lt (by omega), Nat.add_zero]
  have hmod : (2 * cell * i + k) % (2 * cell) = k := by
    rw [Nat.mul_add_mod, Nat.mod_eq_of_lt (by omega)]
  unfold cells
  rw [hdiv, hmod, List.getElem?_eq_getElem hi]
  simp only [if_pos hk]

theorem cells_store {cell i k : Nat} {fill : UInt8} (hi : i < packets.length) (hk : k < cell) :
    cells mem cell fill packets (2 * cell * i + cell + k) =
      (copy mem packets[i].payloadStore packets[i].payloadLength).getD k fill := by
  have hdiv : (2 * cell * i + cell + k) / (2 * cell) = i := by
    rw [Nat.add_assoc, Nat.mul_add_div (by omega), Nat.div_eq_of_lt (by omega), Nat.add_zero]
  have hmod : (2 * cell * i + cell + k) % (2 * cell) = cell + k := by
    rw [Nat.add_assoc, Nat.mul_add_mod, Nat.mod_eq_of_lt (by omega)]
  unfold cells
  rw [hdiv, hmod, List.getElem?_eq_getElem hi]
  simp only [if_neg (show ¬ cell + k < cell by omega), Nat.add_sub_cancel_left]

theorem copy_of_getD {wmem : Memory} {a : Nat} {bytes : Bytes} {fill : UInt8}
    (h : ∀ k, k < bytes.length → wmem (a + k) = bytes.getD k fill) :
    copy wmem a bytes.length = bytes := by
  refine List.ext_getElem (length_copy _ _ _) fun k h₁ h₂ => ?_
  simp only [copy, List.getElem_map, List.getElem_range, h k h₂, List.getD_eq_getElem _ _ h₂]

def FitsCells (lwsPre cell : Nat) (packets : List OutPacket) : Prop :=
  ∀ p ∈ packets, lwsPre + p.packetLength ≤ cell ∧ p.payloadLength ≤ cell

theorem placed_equals {cell i : Nat} {fill : UInt8} (hf : FitsCells lwsPre cell packets)
    (hq : ∀ p ∈ packets, p.Queued) (hi : i < packets.length) :
    (packets[i].placed cell i).Equals mem (cells mem cell fill packets) packets[i] := by
  obtain ⟨hlen, hstore⟩ := hf _ (List.getElem_mem hi)
  have hheld := packets[i].held_le
  have hbuf : (packets[i].payload.take packets[i].held).length = packets[i].held := by
    rw [List.length_take, Nat.min_eq_left (hq _ (List.getElem_mem hi)).1.held_le]
  have hbuffer := copy_of_getD fun k hk =>
    @cells_buffer mem packets cell i k fill hi (by rw [hbuf] at hk; omega)
  have hpayload := copy_of_getD fun k hk =>
    @cells_store mem packets cell i k fill hi (by rw [length_copy] at hk; omega)
  rw [hbuf] at hbuffer
  rw [length_copy] at hpayload
  exact ⟨rfl, rfl, rfl, rfl, rfl, rfl, rfl, hbuffer, hpayload⟩

/-- The websockets packets of a queue. -/
def placements (cell : Nat) (packets : List OutPacket) : List WsPacket :=
  packets.mapIdx fun i p => p.placed cell i

theorem cell_after {cell i j : Nat} (h : i < j) : 2 * cell * i + 2 * cell ≤ 2 * cell * j := by
  rw [← Nat.mul_succ]
  exact Nat.mul_le_mul_left _ h

theorem mem_placements {cell : Nat} {w : WsPacket} (hw : w ∈ placements cell packets) :
    ∃ (i : Nat) (p : OutPacket), p ∈ packets ∧ w = p.placed cell i := by
  obtain ⟨i, hi, rfl⟩ := List.exists_of_mem_mapIdx hw
  exact ⟨i, packets[i], List.getElem_mem hi, rfl⟩

theorem placements_laid {cell : Nat} (hf : FitsCells lwsPre cell packets) :
    WsLaid lwsPre (placements cell packets) := by
  refine ⟨List.pairwise_iff_getElem.mpr fun i j hi hj hij => ?_, fun w hw w' hw' => ?_⟩
  · simp only [placements, List.length_mapIdx] at hi hj
    simp only [placements, List.getElem_mapIdx]
    have hlen := (hf _ (List.getElem_mem hi)).1
    have hheld : (packets[i].placed cell i).held ≤ _ := packets[i].held_le
    have hafter := @cell_after cell i j hij
    left
    show 2 * cell * i + _ ≤ 2 * cell * j
    omega
  · obtain ⟨i, p, hp, rfl⟩ := mem_placements hw
    obtain ⟨j, p', hp', rfl⟩ := mem_placements hw'
    have hlen := (hf p hp).1
    have hstore := (hf p' hp').2
    have hheld : (p.placed cell i).held ≤ _ := p.held_le
    show 2 * cell * i + ((p.placed cell i).held + lwsPre) ≤ 2 * cell * j + cell ∨
      2 * cell * j + cell + p'.payloadLength ≤ 2 * cell * i
    rcases Nat.lt_or_ge j i with hji | hij
    · have hafter := @cell_after cell j i hji
      omega
    · have := Nat.mul_le_mul_left (2 * cell) hij
      omega

theorem placements_apart {cell : Nat} (hf : FitsCells lwsPre cell packets) :
    WsApart lwsPre (placements cell packets) := by
  refine ⟨fun w hw => ?_, List.pairwise_iff_getElem.mpr fun i j hi hj hij => ?_⟩
  · obtain ⟨i, p, hp, rfl⟩ := mem_placements hw
    show 0 + p.packetLength ≤ lwsPre + p.packetLength
    omega
  · simp only [placements, List.length_mapIdx] at hi hj
    simp only [placements, List.getElem_mapIdx]
    have hlen := (hf _ (List.getElem_mem hi)).1
    have hafter := @cell_after cell i j hij
    left
    show 2 * cell * i + (lwsPre + packets[i].packetLength) ≤ 2 * cell * j
    omega

theorem placements_equals {cell : Nat} {fill : UInt8} (hf : FitsCells lwsPre cell packets)
    (hq : ∀ p ∈ packets, p.Queued) :
    List.Forall₂ (WsPacket.Equals mem (cells mem cell fill packets)) packets
      (placements cell packets) := by
  refine List.forall₂_iff_get.mpr ⟨by simp [placements], fun i hi hi' => ?_⟩
  simp only [List.get_eq_getElem, placements, List.getElem_mapIdx]
  exact placed_equals hf hq hi

theorem wsWriteQueue_empties {size : Nat} (queue : List WsPacket) (w : WsPacket) (mem : Memory)
    (sent : Bytes) (hsize : ∀ w' ∈ w :: queue, w'.toProcess ≤ size) :
    ∃ mem' sent', wsWriteQueue lwsPre queue w mem sent
      (List.replicate (queue.length + 1) (.takes size)) = (none, [], mem', sent') := by
  have hstep : ∀ {w : WsPacket} (mem : Memory), w.toProcess ≤ size →
      (wsPosition lwsPre mem w).2.toProcess -
        min size (wsPosition lwsPre mem w).2.toProcess = 0 := by
    intro w mem hw
    have hsame : (wsPosition lwsPre mem w).2.toProcess = w.toProcess := by
      unfold wsPosition
      split <;> rfl
    omega
  induction queue generalizing w mem sent with
  | nil =>
    have hout := hstep mem (hsize w List.mem_cons_self)
    rw [List.replicate_succ, wsWriteQueue]
    simp only [hout, gt_iff_lt, Nat.lt_irrefl, if_false]
    exact ⟨_, _, rfl⟩
  | cons next queue ih =>
    have hout := hstep mem (hsize w List.mem_cons_self)
    rw [List.length_cons, List.replicate_succ, wsWriteQueue]
    simp only [hout, gt_iff_lt, Nat.lt_irrefl, if_false]
    exact ih next _ _ fun w' hw' => hsize w' (List.mem_cons_of_mem w hw')

/-- Packets of equal lengths can be told apart in a stream. -/
theorem forall₂_of_flatMap {f : OutPacket → Bytes} {g : WsPacket → Bytes}
    {wpackets : List WsPacket} (h : List.Forall₂ (fun p w => (f p).length = (g w).length) packets
      wpackets) (heq : packets.flatMap f = wpackets.flatMap g) :
    List.Forall₂ (fun p w => f p = g w) packets wpackets := by
  induction h with
  | nil => exact .nil
  | cons hlen _ ih =>
    rw [List.flatMap_cons, List.flatMap_cons] at heq
    obtain ⟨hhead, htail⟩ := List.append_inj heq hlen
    exact .cons hhead (ih htail)

/-- What an idle network gets from the websockets writer. -/
theorem ws_empties {wmem : Memory} {wpackets : List WsPacket} (hapart : WsApart lwsPre wpackets)
    (wstate : ClientState) : ∃ ws, WsRuns lwsPre ⟨wstate, none, wpackets, wmem, []⟩ ws ∧
      ws.packets = [] ∧ ws.sent = wsUnsent wmem wpackets := by
  cases hw : wpackets with
  | nil => exact ⟨_, .start, rfl, rfl⟩
  | cons w queue =>
    rw [hw] at hapart
    obtain ⟨size, hsize⟩ : ∃ size, ∀ w' ∈ w :: queue, w'.toProcess ≤ size :=
      ⟨((w :: queue).map WsPacket.toProcess).sum,
        fun w' hw' => List.le_sum_of_mem (List.mem_map_of_mem hw')⟩
    obtain ⟨mem', sent', hrun⟩ := @wsWriteQueue_empties lwsPre size queue w wmem [] hsize
    have hadv := @callbackWriteable_advances lwsPre ⟨wstate, none, w :: queue, wmem, []⟩
      (List.replicate (queue.length + 1) (.takes size)) hapart
    have hcall : (callbackWriteable lwsPre ⟨wstate, none, w :: queue, wmem, []⟩
        (List.replicate (queue.length + 1) (.takes size))).2 =
        ⟨wstate, none, [], mem', sent'⟩ := by
      simp only [callbackWriteable, wsCurrentPacket, hrun]
    have hruns : WsRuns lwsPre ⟨wstate, none, w :: queue, wmem, []⟩
        ⟨wstate, none, [], mem', sent'⟩ :=
      hcall ▸ WsRuns.writeable (List.replicate (queue.length + 1) (.takes size)) .start
    rw [hcall] at hadv
    refine ⟨_, hruns, rfl, ?_⟩
    have hbytes := hadv.bytes
    simpa [wsUnsent, WsSender.packets] using hbytes

/-- A client with these packets in its queue. -/
def Sender.queued (packets : List OutPacket) : Sender where
  sock := true
  state := .active
  protocol := .mqtt311
  maximumPacketSize := 0
  currentOutPacket := none
  outPacket := packets
  sent := []

/-- What an idle network gets from the other writer. -/
theorem tcp_empties (mem : Memory) (hq : ∀ p ∈ packets, p.Queued) : ∃ net,
    (packetWrites [mem] (Sender.queued packets) net).1.packets = [] ∧
      (packetWrites [mem] (Sender.queued packets) net).1.sent = packets.flatMap (image mem) := by
  obtain ⟨size, hsize⟩ : ∃ size, size = (unsent mem (Sender.queued packets)).length := ⟨_, rfl⟩
  have hkeeps : ∀ mem' ∈ [mem], ∀ p ∈ packets, Keeps mem mem' p := by
    intro mem' hmem' p _
    rw [List.mem_singleton.mp hmem']
    rfl
  have hstate : (Sender.queued packets).state ≠ .connectPending :=
    show ClientState.active ≠ .connectPending by decide
  have hdone : (packetWrites [mem] (Sender.queued packets)
      (List.replicate size (.takes 0))).1.packets = [] := by
    refine @packetWrites_done mem [mem] (Sender.queued packets) _ (fun p hp => (hq p hp).1) hkeeps
      rfl hstate ?_ ?_
    · rw [← hsize, takings, List.countP_replicate]
      simp
    · rw [agains, List.countP_replicate]
      simp
  refine ⟨_, hdone, ?_⟩
  have hsent := @tcp_sent mem packets hq (Sender.queued packets) [mem]
    (List.replicate size (.takes 0)) rfl rfl rfl hkeeps
  have hnone : unsent mem (packetWrites [mem] (Sender.queued packets)
      (List.replicate size (.takes 0))).1 = [] := by
    rw [unsent, hdone, List.flatMap_nil]
  rw [← hsent]
  exact (List.append_nil _).symm.trans (congrArg _ hnone.symm)

/-- The byte behind the header is the first of the payload. -/
theorem image_payload {p : OutPacket} (hq : p.Queued) (hpub : p.pubOrNot = true)
    (hpay : p.payloadLength ≠ 0) : (image mem p)[p.held]? = some (mem p.payloadStore) := by
  have hlen : (p.payload.take (p.packetLength - p.payloadLength)).length =
      p.packetLength - p.payloadLength := by
    rw [List.length_take, Nat.min_eq_left (hq.1.publish hpub).2]
  rw [image, attachPayload_publish hpub, OutPacket.held, if_pos hpub,
    List.getElem?_append_right (by omega), hlen, Nat.sub_self, copy]
  simp [Nat.pos_of_ne_zero hpay]

theorem fits_cells (lwsPre : Nat) (packets : List OutPacket) :
    ∃ cell, FitsCells lwsPre cell packets := by
  refine ⟨lwsPre + (packets.map fun p => p.packetLength + p.payloadLength).sum, fun p hp => ?_⟩
  have hle : p.packetLength + p.payloadLength ≤
      (packets.map fun p => p.packetLength + p.payloadLength).sum :=
    List.le_sum_of_mem (List.mem_map.mpr ⟨p, hp, rfl⟩)
  omega

/-- With a payload to attach they do not. -/
theorem bare_of_writersAgree (hq : ∀ p ∈ packets, p.Queued)
    (h : WritersAgree lwsPre mem packets) {p : OutPacket} (hp : p ∈ packets)
    (hpub : p.pubOrNot = true) : p.payloadLength = 0 := by
  by_contra hpay
  obtain ⟨cell, hf⟩ := fits_cells lwsPre packets
  obtain ⟨fill, hfill⟩ : ∃ fill, fill ≠ mem p.payloadStore := by
    by_cases hzero : mem p.payloadStore = 0
    · exact ⟨1, by rw [hzero]; decide⟩
    · exact ⟨0, Ne.symm hzero⟩
  obtain ⟨ws, hruns, hws, hsent⟩ := @ws_empties lwsPre (cells mem cell fill packets) _
    (placements_apart hf) .active
  obtain ⟨net, htcp, hsent'⟩ := tcp_empties mem hq
  have heq := @placements_equals lwsPre mem packets cell fill hf hq
  have hagree := (h _ _ .active (placements_laid hf) heq ws hruns (Sender.queued packets) [mem] net
    rfl rfl rfl (fun mem' hmem' q _ => by rw [List.mem_singleton.mp hmem']; rfl)).2 hws htcp
  rw [hsent, hsent'] at hagree
  have hlength : List.Forall₂ (fun p w => (image mem p).length =
      (wsUnsentOf (cells mem cell fill packets) w).length) packets (placements cell packets) := by
    refine List.forall₂_iff_get.mpr ⟨heq.length_eq, fun i hi hi' => ?_⟩
    have he := heq.get hi hi'
    simp only [List.get_eq_getElem] at he ⊢
    rw [length_image (hq _ (List.getElem_mem hi)).1, wsUnsentOf, length_copy, he.toProcess,
      he.packetLength]
  have heach := forall₂_of_flatMap hlength hagree.symm
  obtain ⟨i, hi, rfl⟩ := List.getElem_of_mem hp
  have hsame := heach.get hi (by simpa [placements] using hi)
  simp only [List.get_eq_getElem, placements, List.getElem_mapIdx] at hsame
  -- The byte behind the header is one the writer never put there.
  have hheld : packets[i].held < packets[i].packetLength := by
    have := ((hq _ hp).1.publish hpub).1
    rw [OutPacket.held, if_pos hpub]
    omega
  have hbuffer := @cells_buffer mem packets cell i packets[i].held fill hi
    (by have := (hf _ hp).1; omega)
  rw [List.getD_eq_default _ _ (List.length_take_le _ _)] at hbuffer
  have hbyte : (wsUnsentOf (cells mem cell fill packets)
      (packets[i].placed cell i))[packets[i].held]? = some fill := by
    rw [wsUnsentOf, copy, List.getElem?_map]
    show ((List.range packets[i].packetLength)[packets[i].held]?).map _ = _
    rw [List.getElem?_range hheld]
    exact congrArg some hbuffer
  rw [← hsame, image_payload (hq _ hp) hpub hpay] at hbyte
  exact hfill (Option.some.inj hbyte).symm

/-- **The writers send the same bytes exactly when no PUBLISH has a payload.** -/
theorem websocket_writer_agrees_iff (lwsPre : Nat) (mem : Memory) {packets : List OutPacket}
    (hq : ∀ p ∈ packets, p.Queued) : WritersAgree lwsPre mem packets ↔
      ∀ p ∈ packets, p.pubOrNot = true → p.payloadLength = 0 :=
  ⟨fun h _ hp hpub => bare_of_writersAgree hq h hp hpub, writersAgree_of_bare hq⟩

end Agree

/-- A QoS 0 PUBLISH of the byte `b` to the topic `a`, with its payload at address 100. -/
def OutPacket.publishA : OutPacket where
  command := 0x30
  mid := 0
  packetLength := 6
  payloadLength := 1
  pubOrNot := true
  payload := [0x30, 4, 0, 1, 97]
  payloadStore := 100
  pos := 0
  toProcess := 6

def OutPacket.pingresp : OutPacket where
  command := 0xD0
  mid := 0
  packetLength := 2
  payloadLength := 0
  pubOrNot := false
  payload := [0xD0, 0]
  payloadStore := 0
  pos := 0
  toProcess := 2

/-- A QoS 0 PUBLISH without a payload to the topic `a`. -/
def OutPacket.publishBare : OutPacket where
  command := 0x30
  mid := 0
  packetLength := 5
  payloadLength := 0
  pubOrNot := true
  payload := [0x30, 3, 0, 1, 97]
  payloadStore := 0
  pos := 0
  toProcess := 5

/-- Three packets, which `packet__write` sends in parts. -/
theorem websocket_writer_agrees_pingresp :
    WritersAgree 16 (fun _ => 98) [.pingresp, .publishBare, .pingresp] ∧
    (packetWrites (List.replicate 3 fun _ => 98) (Sender.queued [.pingresp, .publishBare, .pingresp])
      [.takes 1, .again, .takes 4, .again, .takes 9]).1.sent =
      [0xD0, 0, 0x30, 3, 0, 1, 97, 0xD0, 0] := by
  refine ⟨(websocket_writer_agrees_iff 16 _ ?_).mpr ?_, by decide⟩
  · intro p hp
    simp only [List.mem_cons, List.not_mem_nil, or_false] at hp
    rcases hp with rfl | rfl | rfl
    · exact ⟨⟨rfl, fun h => absurd h (by decide), fun _ => rfl⟩, rfl⟩
    · exact ⟨⟨rfl, fun _ => by decide, fun h => absurd h (by decide)⟩, rfl⟩
    · exact ⟨⟨rfl, fun h => absurd h (by decide), fun _ => rfl⟩, rfl⟩
  · intro p hp _
    simp only [List.mem_cons, List.not_mem_nil, or_false] at hp
    rcases hp with rfl | rfl | rfl
    · rfl
    · rfl
    · rfl

/-- The memory of the broker: the header at address 0, the payload at 100, zero elsewhere. -/
def wsMemory : Memory := fun a => if a = 100 then 98 else [0x30, 4, 0, 1, 97].getD a 0

/-- The websockets client gets a zero byte where the other client gets the payload. -/
theorem websocket_payload_lost : ¬ WritersAgree 16 (fun _ => 98) [.publishA] := by
  intro h
  have hrun : WsRuns 16 ⟨.active, none, [⟨0x30, 0, 6, 1, true, 0, 100, 0, 6⟩], wsMemory, []⟩ _ :=
    .writeable [.takes 6] .start
  have hsame := (h wsMemory [⟨0x30, 0, 6, 1, true, 0, 100, 0, 6⟩] .active
    ⟨List.pairwise_singleton _ _, by simp [Separate, WsPacket.held]⟩
    (.cons ⟨rfl, rfl, rfl, rfl, rfl, rfl, rfl, by decide, by decide⟩ .nil)
    _ hrun (Sender.queued [.publishA]) [fun _ => 98] [.takes 5] rfl rfl rfl
    (by intro mem' hm p hp; rw [List.mem_singleton.mp hm]; rfl)).2 rfl rfl
  exact absurd hsame (by decide)

end AdaptiveMqtt.Packet
