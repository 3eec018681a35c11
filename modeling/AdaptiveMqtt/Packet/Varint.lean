import AdaptiveMqtt.Packet.Stream
import AdaptiveMqtt.Packet.Write

/-!
# Variable byte integers

The format has two writers, `packet__write_varint` and `packet__alloc`, and two readers,
`packet__read_varint` and the second block of `packet__read`. All four are described by
`varintBytes`. The length that `packet__alloc` writes is the one `packet__read` goes on with,
however the network delivers it.
-/

namespace AdaptiveMqtt.Packet

open Lib Writer

/-- The header of a packet is its command and the digits of its length. -/
theorem packetAlloc_header (command : UInt8) {word payloadLength : Nat} {pubOrNot : Bool}
    (hword : word < 2 ^ 28) (hpay : pubOrNot = true → payloadLength ≤ word) :
    ∃ buffer, packetAlloc command word payloadLength pubOrNot =
        .ok (word + 1 + (varintBytes word).length, buffer) ∧
      buffer.written = command :: varintBytes word := by
  cases pubOrNot with
  | true =>
    obtain ⟨buffer, halloc, hwritten, -⟩ := @packetAlloc_eq command word payloadLength true hword
      (hpay rfl) (fun h => by cases h)
    exact ⟨buffer, halloc, hwritten⟩
  | false =>
    obtain ⟨buffer, halloc, hwritten, -⟩ := @packetAlloc_eq command word 0 false hword
      (Nat.zero_le _) (fun _ => rfl)
    exact ⟨buffer, halloc, hwritten⟩

/-! ## `packet__read` -/

section Read

variable {σ : Type} {h : Host σ}

/-- What `packet__read` makes of a packet whose remaining length it has read as `word`. -/
structure ReadsLength (h : Host σ) (conn : Conn σ) (digits word : Nat) (payload : Bytes)
    (result : Option Rc × Conn σ) : Prop where
  refused : ∀ {r}, lengthDone h (conn.decoded digits word) = .error r → result = (some r.1, r.2)
  handled : ∀ {c}, lengthDone h (conn.decoded digits word) = .ok c →
    result.2.handled = conn.handled ++ [⟨conn.inPacket.command, word, payload⟩]

variable {conn : Conn σ} {command : UInt8} {word : Nat} {payload : Bytes}

/-- The checks leave the packet as it is. -/
theorem lengthDone_ok {c : Conn σ} (ht : lengthDone h conn = .ok c) :
    c = { conn with inPacket := { conn.inPacket with
      remainingCount := -conn.inPacket.remainingCount
      toProcess := conn.inPacket.remainingLength } } := by
  unfold lengthDone at ht
  simp only at ht
  split at ht
  · cases ht
  · split at ht <;> cases ht
    rfl

/-- The payload completes the packet. -/
theorem proceed_handled {c : Conn σ} (hl : Live h c) (hcommand : c.inPacket.command ≠ 0)
    (hcount : 0 < c.inPacket.remainingCount) (hleft : c.inPacket.toProcess = payload.length) :
    (proceed h c payload).2.handled = c.handled ++
      [⟨c.inPacket.command, c.inPacket.remainingLength, c.inPacket.payload ++ payload⟩] := by
  have hbody : At (.body (payload.length + 0)) c.inPacket := ⟨hcommand, hcount, hleft⟩
  have hrun := @proceed_payload _ _ [] payload _ _ hl hbody
  have hcomplete : 0 < (payloadBytes c payload).inPacket.remainingCount ∧
      (payloadBytes c payload).inPacket.toProcess = 0 := by
    refine ⟨hcount, ?_⟩
    rw [payloadBytes, hleft]
    exact Nat.sub_self _
  rw [List.append_nil] at hrun
  rw [hrun, proceed, settle, if_pos hcomplete]
  simp only
  split
  · rename_i r hr
    split at hr
    · cases hr
      rfl
    · cases hr
  · rename_i c' hr
    split at hr
    · cases hr
    · cases hr
      rfl

/-- **A packet is read with its length**, in as many calls as its delivery takes. -/
theorem packetReads_length (hl : Live h conn) (hp : conn.inPacket = { packetCleanup with command })
    (hcommand : command ≠ 0) (hlen : payload.length < 2 ^ 28) {net : List NetEvent}
    (hnet : delivered net = varintBytes payload.length ++ payload) {n : Nat}
    (hn : scriptSize net < n) :
    ReadsLength h conn (varintBytes payload.length).length payload.length payload
      (packetReads h n conn net) := by
  have hat : At (.length 0 conn.inPacket.remainingLength) conn.inPacket := by
    rw [hp]
    exact ⟨hcommand, rfl, Nat.zero_le _, rfl, rfl⟩
  have hsum : conn.inPacket.remainingLength = 0 := by rw [hp]; rfl
  have hcontrol : controlBytes (.length 0 0) (varintBytes payload.length ++ payload) = [] := by
    have hbody := controlBytes_body payload [] 0
    rw [List.append_nil] at hbody
    rw [varintBytes, controlBytes_digits 3 hlen (by omega), Nat.zero_add, Nat.pow_zero,
      Nat.mul_one]
    exact hbody
  have hrest : Resting h (.length 0 0) conn net := by
    rw [hsum] at hat
    exact ⟨.inr ⟨by simp, hat, hl⟩, by rw [hnet, hcontrol]; exact List.not_mem_nil⟩
  have hrun := consume_length 3 hl hat hlen (by omega) payload
  rw [hsum, Nat.zero_add, Nat.zero_add, Nat.pow_zero, Nat.mul_one] at hrun
  rw [packetReads_eq n hrest (.inl hn), hnet, varintBytes, hrun]
  refine ⟨fun hr => ?_, fun hc => ?_⟩
  · rw [hr]
  · rw [hc]
    have hpos : (0 : Int) < (varintDigits 4 payload.length).length := by
      exact_mod_cast length_varintDigits_pos 3 payload.length
    have heq := lengthDone_ok hc
    simp only
    rw [proceed_handled]
    · rw [heq]
      simp only [Conn.decoded, hp, packetCleanup, List.nil_append]
    · rw [heq]
      exact ⟨hl.sock, hl.state⟩
    · rw [heq]
      exact hat.1
    · rw [heq]
      simpa [Conn.decoded] using hpos
    · rw [heq]
      rfl

end Read

/-! ## All four -/

/-- The bytes are the number for both writers and both readers. -/
structure Encodes (word : Nat) (bytes : Bytes) : Prop where
  written : packetWriteVarint word = emit .abort bytes
  counted : packetVarintBytes word = bytes.length
  read : ∀ rest, packetReadVarint (bytes ++ rest) = .ok ((word, bytes.length), rest)
  allocated : ∀ command payloadLength pubOrNot, (pubOrNot = true → payloadLength ≤ word) →
    ∃ buffer, packetAlloc command word payloadLength pubOrNot =
      .ok (word + 1 + bytes.length, buffer) ∧ buffer.written = command :: bytes
  received : ∀ {σ : Type} (h : Host σ) (conn : Conn σ) (command : UInt8) (payload : Bytes)
    (net : List NetEvent) (n : Nat), Live h conn →
    conn.inPacket = { packetCleanup with command } → command ≠ 0 → payload.length = word →
    delivered net = bytes ++ payload → scriptSize net < n →
    ReadsLength h conn bytes.length word payload (packetReads h n conn net)

theorem encodes_varintBytes {word : Nat} (hword : word < 2 ^ 28) :
    Encodes word (varintBytes word) where
  written := packetWriteVarint_eq hword
  counted := (length_varintBytes hword).symm
  read _ := packetReadVarint_eq_ok.mpr ⟨hword, rfl, rfl⟩
  allocated command _ _ hpay := packetAlloc_header command hword hpay
  received := by
    intro σ h conn command payload net n hl hp hcommand hlen hnet hn
    subst hlen
    exact packetReads_length hl hp hcommand hword hnet hn

/-- **The variable byte integers agree**: every number up to 268435455 has bytes that both
writers write and both readers read, `packet__read_varint` accepts no others, and
`packet__alloc` fails for the larger numbers only. -/
theorem varint_formats_agree :
    (∀ word ≤ 268435455, ∃ bytes, Encodes word bytes) ∧
    (∀ s word count rest, packetReadVarint s = .ok ((word, count), rest) →
      word ≤ 268435455 ∧ ∃ bytes, packetWriteVarint word = emit .abort bytes ∧
        s = bytes ++ rest ∧ count = bytes.length) ∧
    (∀ command word payloadLength pubOrNot,
      (∃ rc, packetAlloc command word payloadLength pubOrNot = .error (.code rc)) ↔
        268435456 ≤ word) := by
  refine ⟨fun word hword => ?_, fun s word count rest h => ?_, fun command word len pub => ?_⟩
  · have hlt : word < 2 ^ 28 := by omega
    exact ⟨varintBytes word, encodes_varintBytes hlt⟩
  · obtain ⟨hlt, hcount, hs⟩ := packetReadVarint_eq_ok.mp h
    exact ⟨by omega, varintBytes word, packetWriteVarint_eq hlt, hs, hcount⟩
  · simp only [packetAlloc_error_iff, exists_eq_left]
    norm_num

end AdaptiveMqtt.Packet
