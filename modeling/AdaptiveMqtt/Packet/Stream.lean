import AdaptiveMqtt.Packet.Read

/-!
# The stream of packets

`consume` reads a stream byte by byte, with no calls and no script. Every call of
`packet__read` follows it (`packetRead_follows`): the bytes it took bring `consume` to the
state it leaves. So the packets that are handled and the error that ends the connection are
those of the stream, however it was delivered (`packetReads_eq`).

Between two calls the reader takes a command of zero for no command. The streams are those
in which no packet begins with a zero byte, by the framing `Frame`.
-/

namespace AdaptiveMqtt.Packet

open Lib

section Stream

variable {σ : Type} (h : Host σ)

/-! ## The stream, byte by byte -/

/-- What a byte does to a packet that is being read. -/
def takeByte (conn : Conn σ) (byte : UInt8) : Except (Return σ) (Conn σ) :=
  if conn.inPacket.command = 0 then commandByte h conn byte
  else if conn.inPacket.remainingCount ≤ 0 then
    match lengthByte conn byte with
    | .error r => .error r
    | .ok (false, conn) => .ok conn
    | .ok (true, conn) => lengthDone h conn
  else .ok (payloadBytes conn [byte])

/-- Handle the packet if it is complete. -/
def settle (conn : Conn σ) : Except (Return σ) (Conn σ) :=
  if 0 < conn.inPacket.remainingCount ∧ conn.inPacket.toProcess = 0 then
    let r := packetDone h conn
    if r.1 ≠ Rc.success then .error r else .ok r.2
  else .ok conn

/-- Read a stream: the error that ends the connection, if any, and the client. -/
def consume : Conn σ → Bytes → Option Rc × Conn σ
  | conn, [] => (if h.hasSock conn.mosq then none else some Rc.noConn, conn)
  | conn, byte :: stream =>
    if !h.hasSock conn.mosq then (some Rc.noConn, conn)
    else if h.state conn.mosq = .connectPending then (none, conn)
    else
      match takeByte h conn byte >>= settle h with
      | .error r => (some r.1, r.2)
      | .ok conn => consume conn stream

/-- Where a byte of the stream stands: `body 0` is between two packets. -/
inductive Frame where
  | length (read sum : Nat)
  | body (left : Nat)
  | broken
  deriving DecidableEq

/-- The place after the byte. -/
def Frame.next : Frame → UInt8 → Frame
  | .body 0, _ => .length 0 0
  | .body (left + 1), _ => .body left
  | .length read sum, byte =>
    if read = 4 then .broken
    else if byte &&& 128 = 0 then .body (sum + (byte &&& 127).toNat * 128 ^ read)
    else .length (read + 1) (sum + (byte &&& 127).toNat * 128 ^ read)
  | .broken, _ => .broken

def controlBytes : Frame → Bytes → Bytes
  | _, [] => []
  | f, byte :: stream =>
    if f = .body 0 then byte :: controlBytes (f.next byte) stream
    else controlBytes (f.next byte) stream

/-! ## The script -/

/-- The bytes and the `EAGAIN`s left in a script. -/
def scriptSize : List NetEvent → Nat
  | [] => 0
  | .again :: net => scriptSize net + 1
  | .bytes _ more :: net => scriptSize net + more.length + 2

theorem netRead_none {count : Nat} {net net' : List NetEvent}
    (hr : netRead count net = (none, net')) :
    delivered net' = delivered net ∧ scriptSize net' ≤ scriptSize net - 1 := by
  unfold netRead at hr
  split at hr
  · cases hr
    exact ⟨rfl, Nat.le_refl _⟩
  · cases hr
    exact ⟨rfl, Nat.le_refl _⟩
  · split at hr
    · cases hr
    · cases hr

theorem netRead_some {count : Nat} {net net' : List NetEvent} {bytes : Bytes} (hc : 0 < count)
    (hr : netRead count net = (some bytes, net')) :
    delivered net = bytes ++ delivered net' ∧ scriptSize net' < scriptSize net ∧
      0 < bytes.length ∧ bytes.length ≤ count := by
  unfold netRead at hr
  split at hr
  · cases hr
  · cases hr
  · rename_i first more net
    split at hr
    · rename_i hd
      cases hr
      have hlen := congrArg List.length hd
      simp only [List.length_drop, List.length_cons, List.length_nil] at hlen
      refine ⟨rfl, ?_, Nat.succ_pos _, ?_⟩
      · simp only [scriptSize]
        omega
      · simp only [List.length_cons]
        omega
    · rename_i b left hd
      cases hr
      have hsplit := List.take_append_drop count (first :: more)
      have hlen := congrArg List.length hd
      simp only [List.length_drop, List.length_cons] at hlen
      refine ⟨?_, ?_, ?_, ?_⟩
      · rw [hd] at hsplit
        show (first :: more) ++ delivered net = _ ++ ((b :: left) ++ delivered net)
        rw [← List.append_assoc, hsplit]
      · simp only [scriptSize]
        omega
      · simp only [List.length_take, List.length_cons]
        omega
      · simp only [List.length_take]
        omega

theorem netRead_one {net net' : List NetEvent} {bytes : Bytes}
    (hr : netRead 1 net = (some bytes, net')) :
    delivered net = bytes.headD 0 :: delivered net' ∧ scriptSize net' < scriptSize net := by
  obtain ⟨hd, hs, hpos, hle⟩ := netRead_some Nat.one_pos hr
  match bytes, hpos, hle with
  | [b], _, _ => exact ⟨hd, hs⟩

/-! ## The places of a packet -/

/-- The packet stands at this place of the stream. -/
def At : Frame → InPacket → Prop
  | .length read sum, p => p.command ≠ 0 ∧ p.remainingCount = -read ∧ read ≤ 4 ∧
      p.remainingMult = 128 ^ read ∧ p.remainingLength = sum
  | .body left, p => p.command ≠ 0 ∧ 0 < p.remainingCount ∧ p.toProcess = left
  | .broken, _ => False

theorem controlBytes_next {f : Frame} {byte : UInt8} {stream : Bytes}
    (hz : 0 ∉ controlBytes f (byte :: stream)) : 0 ∉ controlBytes (f.next byte) stream := by
  unfold controlBytes at hz
  split at hz
  · exact fun hm => hz (List.mem_cons_of_mem _ hm)
  · exact hz

theorem controlBytes_body (bytes stream : Bytes) (left : Nat) :
    controlBytes (.body (bytes.length + left)) (bytes ++ stream) =
      controlBytes (.body left) stream := by
  induction bytes with
  | nil => simp
  | cons b bytes ih =>
    have hn : (b :: bytes).length + left = bytes.length + left + 1 := by
      simp only [List.length_cons]
      omega
    rw [hn, List.cons_append, controlBytes, if_neg (by simp)]
    exact ih

variable {h}

theorem lengthByte_at {conn c : Conn σ} {byte : UInt8} {last : Bool} {read sum : Nat}
    (ha : At (.length read sum) conn.inPacket) (ht : lengthByte conn byte = .ok (last, c)) :
    c.mosq = conn.mosq ∧ c.inPacket.command ≠ 0 ∧
      c.inPacket.remainingCount = -(read + 1 : Nat) ∧ read + 1 ≤ 4 ∧
      c.inPacket.remainingMult = 128 ^ (read + 1) ∧
      c.inPacket.remainingLength = sum + (byte &&& 127).toNat * 128 ^ read ∧
      (last = true ↔ byte &&& 128 = 0) := by
  obtain ⟨hcmd, hcount, hread, hmult, hsum⟩ := ha
  unfold lengthByte at ht
  simp only at ht
  split at ht
  · cases ht
  · rename_i hlow
    cases ht
    refine ⟨rfl, hcmd, ?_, ?_, ?_, ?_, decide_eq_true_iff⟩
    · simp only [hcount]
      omega
    · omega
    · simp only [hmult, Nat.pow_succ]
    · simp only [hmult, hsum]

theorem lengthDone_at {conn c : Conn σ} (ht : lengthDone h conn = .ok c)
    (hcmd : conn.inPacket.command ≠ 0) (hcount : conn.inPacket.remainingCount < 0) :
    c.mosq = conn.mosq ∧ At (.body conn.inPacket.remainingLength) c.inPacket := by
  unfold lengthDone at ht
  simp only at ht
  split at ht
  · cases ht
  · split at ht
    · cases ht
    · cases ht
      exact ⟨rfl, hcmd, by simp only; omega, rfl⟩

theorem takeByte_at {conn c : Conn σ} {byte : UInt8} {f : Frame} (ha : At f conn.inPacket)
    (hf : f ≠ .body 0) (ht : takeByte h conn byte = .ok c) :
    c.mosq = conn.mosq ∧ At (f.next byte) c.inPacket := by
  unfold takeByte at ht
  cases f with
  | broken => exact ha.elim
  | body left =>
    obtain ⟨hcmd, hcount, hleft⟩ := ha
    rw [if_neg hcmd, if_neg (by omega)] at ht
    cases ht
    cases left with
    | zero => exact absurd rfl hf
    | succ left =>
      refine ⟨rfl, hcmd, hcount, ?_⟩
      simp only [payloadBytes, hleft, List.length_singleton]
      omega
  | length read sum =>
    rw [if_neg ha.1, if_pos (by rw [ha.2.1]; omega)] at ht
    cases hl : lengthByte conn byte with
    | error r =>
      rw [hl] at ht
      cases ht
    | ok r =>
      obtain ⟨last, c'⟩ := r
      obtain ⟨hmosq, hcmd, hcount, hread, hmult, hsum, hlast⟩ := lengthByte_at ha hl
      rw [hl] at ht
      have hnot : read ≠ 4 := by omega
      cases last with
      | false =>
        cases ht
        rw [Frame.next, if_neg hnot, if_neg (by simpa using hlast)]
        exact ⟨hmosq, hcmd, hcount, hread, hmult, hsum⟩
      | true =>
        obtain ⟨hm, hat⟩ := lengthDone_at ht hcmd (by omega)
        rw [Frame.next, if_neg hnot, if_pos (hlast.mp rfl), ← hsum]
        exact ⟨hm.trans hmosq, hat⟩

theorem commandByte_error {conn : Conn σ} {byte : UInt8} {r : Return σ}
    (ht : commandByte h conn byte = .error r) : r.1 ≠ Rc.success := by
  unfold commandByte at ht
  simp only at ht
  split at ht
  · cases ht
    show Rc.protocol ≠ Rc.success
    decide
  · cases ht

theorem lengthByte_error {conn : Conn σ} {byte : UInt8} {r : Return σ}
    (ht : lengthByte conn byte = .error r) : r.1 ≠ Rc.success := by
  unfold lengthByte at ht
  simp only at ht
  split at ht
  · cases ht
    show Rc.malformedPacket ≠ Rc.success
    decide
  · cases ht

theorem lengthDone_error {conn : Conn σ} {r : Return σ} (ht : lengthDone h conn = .error r) :
    r.1 ≠ Rc.success := by
  unfold lengthDone at ht
  simp only at ht
  split at ht
  · cases ht
    show Rc.malformedPacket ≠ Rc.success
    decide
  · split at ht
    · cases ht
      show Rc.oversizePacket ≠ Rc.success
      decide
    · cases ht

/-! ## A call and the stream -/

/-- The client can be read from. -/
structure Live (h : Host σ) (conn : Conn σ) : Prop where
  sock : h.hasSock conn.mosq = true
  state : h.state conn.mosq ≠ .connectPending

/-- Read on once the packet is settled. -/
def proceed (h : Host σ) (conn : Conn σ) (stream : Bytes) : Option Rc × Conn σ :=
  match settle h conn with
  | .error r => (some r.1, r.2)
  | .ok conn => consume h conn stream

theorem consume_cons {conn : Conn σ} (hl : Live h conn) (byte : UInt8) (stream : Bytes) :
    consume h conn (byte :: stream) =
      match takeByte h conn byte with
      | .error r => (some r.1, r.2)
      | .ok c => proceed h c stream := by
  rw [consume, if_neg (by rw [hl.sock]; decide), if_neg hl.state]
  cases takeByte h conn byte with
  | error r => rfl
  | ok c => rfl

/-- A packet that is not complete waits for more. -/
theorem proceed_at {conn : Conn σ} {f : Frame} (ha : At f conn.inPacket) (hf : f ≠ .body 0)
    (stream : Bytes) : proceed h conn stream = consume h conn stream := by
  have hs : settle h conn = .ok conn := by
    unfold settle
    rw [if_neg]
    rintro ⟨hcount, hleft⟩
    cases f with
    | broken => exact ha
    | body left =>
      rw [← ha.2.2, hleft] at hf
      exact hf rfl
    | length read sum =>
      rw [ha.2.1] at hcount
      omega
  rw [proceed, hs]

theorem payloadBytes_append (conn : Conn σ) (bytes bytes' : Bytes) :
    payloadBytes (payloadBytes conn bytes) bytes' = payloadBytes conn (bytes ++ bytes') := by
  simp only [payloadBytes, List.append_assoc, List.length_append, Nat.sub_sub]

/-- The payload can come in pieces of any sizes. -/
theorem proceed_payload {stream : Bytes} (bytes : Bytes) {conn : Conn σ} {left : Nat}
    (hl : Live h conn) (ha : At (.body (bytes.length + left)) conn.inPacket) :
    proceed h conn (bytes ++ stream) = proceed h (payloadBytes conn bytes) stream := by
  induction bytes generalizing conn with
  | nil =>
    have hnil : payloadBytes conn [] = conn := by
      simp only [payloadBytes, List.append_nil, List.length_nil, Nat.sub_zero]
    rw [hnil]
    rfl
  | cons b bytes ih =>
    have hn : (b :: bytes).length + left = bytes.length + left + 1 := by
      simp only [List.length_cons]
      omega
    rw [hn] at ha
    have ht : takeByte h conn b = .ok (payloadBytes conn [b]) := by
      unfold takeByte
      rw [if_neg ha.1, if_neg (by have := ha.2.1; omega)]
    rw [proceed_at ha (by simp), List.cons_append, consume_cons hl, ht]
    have hnext := (takeByte_at ha (by simp) ht).2
    have hrun := @ih (payloadBytes conn [b]) ⟨hl.sock, hl.state⟩ hnext
    rw [payloadBytes_append] at hrun
    exact hrun

/-! A part of `packet__read` is entered with a packet at some place. It leaves a packet at a
later place, returns to wait, or returns an error: in each case what `consume` makes of the
rest is what it made of the whole. -/

/-- Inside a call that is to end with `value` and was begun with `size` left in the script. -/
structure Reached (h : Host σ) (value : Option Rc × Conn σ) (size : Nat) (f : Frame)
    (conn : Conn σ) (net : List NetEvent) : Prop where
  live : Live h conn
  place : At f conn.inPacket
  control : 0 ∉ controlBytes f (delivered net)
  progress : scriptSize net < size ∨ scriptSize net = size ∧ f ≠ .body 0
  run : proceed h conn (delivered net) = value

/-- Between two calls: no packet is begun, or the client can still be read from. -/
structure Resting (h : Host σ) (f : Frame) (conn : Conn σ) (net : List NetEvent) : Prop where
  place : f = .body 0 ∧ conn.inPacket = packetCleanup ∨
    f ≠ .body 0 ∧ At f conn.inPacket ∧ Live h conn
  control : 0 ∉ controlBytes f (delivered net)

/-- A part of `packet__read` that ends at a place of the given stage, or returns. -/
def Follows (h : Host σ) (value : Option Rc × Conn σ) (size : Nat) (stage : Frame → Prop) :
    Except (Return σ × List NetEvent) (Conn σ × List NetEvent) → Prop
  | .ok (conn, net) => ∃ f, stage f ∧ Reached h value size f conn net
  | .error ((rc, conn), net) =>
    rc ≠ Rc.success ∧ (some rc, conn) = value ∨
    rc = Rc.success ∧ (∃ f, Resting h f conn net) ∧ scriptSize net ≤ size - 1 ∧
      consume h conn (delivered net) = value

section Parts

variable {value : Option Rc × Conn σ} {size : Nat} {f : Frame} {conn : Conn σ}
  {net net' : List NetEvent}

/-- Nothing there: the call returns. -/
theorem Reached.wait {count : Nat} {stage : Frame → Prop} (hr : Reached h value size f conn net)
    (hf : f ≠ .body 0) (hn : netRead count net = (none, net')) :
    Follows h value size stage (.error ((Rc.success, conn), net')) := by
  obtain ⟨hd, hs⟩ := netRead_none hn
  refine .inr ⟨rfl, ⟨f, .inr ⟨hf, hr.place, hr.live⟩, ?_⟩, ?_, ?_⟩
  · rw [hd]
    exact hr.control
  · have := hr.progress
    omega
  · rw [hd, ← hr.run, proceed_at hr.place hf]

/-- A byte is taken. -/
theorem Reached.step {byte : UInt8} {c : Conn σ} (hr : Reached h value size f conn net)
    (hf : f ≠ .body 0) (hd : delivered net = byte :: delivered net')
    (hs : scriptSize net' < scriptSize net) (ht : takeByte h conn byte = .ok c) :
    Reached h value size (f.next byte) c net' := by
  obtain ⟨hmosq, hat⟩ := takeByte_at hr.place hf ht
  have hrun := hr.run
  have hcontrol := hr.control
  rw [proceed_at hr.place hf, hd, consume_cons hr.live, ht] at hrun
  rw [hd] at hcontrol
  refine ⟨⟨?_, ?_⟩, hat, controlBytes_next hcontrol, ?_, hrun⟩
  · rw [hmosq]
    exact hr.live.sock
  · rw [hmosq]
    exact hr.live.state
  · have := hr.progress
    omega

theorem Reached.refuse {byte : UInt8} {r : Return σ} (hr : Reached h value size f conn net)
    (hf : f ≠ .body 0) (hd : delivered net = byte :: delivered net')
    (ht : takeByte h conn byte = .error r) : (some r.1, r.2) = value := by
  have hrun := hr.run
  rw [proceed_at hr.place hf, hd, consume_cons hr.live, ht] at hrun
  exact hrun

theorem readLengthLoop_follows : ∀ (left : Nat) {conn : Conn σ} {net : List NetEvent}
    {read sum : Nat}, 4 < left + read → Reached h value size (.length read sum) conn net →
    Follows h value size (∃ k, · = .body k) (readLengthLoop h left conn net)
  | 0, conn, net, read, sum, hfuel, hr => by
    have := hr.place.2.2.1
    omega
  | left + 1, conn, net, read, sum, hfuel, hr => by
    have hcmd := hr.place.1
    have hcount : conn.inPacket.remainingCount ≤ 0 := by
      rw [hr.place.2.1]
      omega
    have hf : Frame.length read sum ≠ .body 0 := by simp
    unfold readLengthLoop
    split
    · rename_i net' hn
      exact hr.wait hf hn
    · rename_i bytes net' hn
      obtain ⟨hd, hs⟩ := netRead_one hn
      have hbyte : takeByte h conn (bytes.headD 0) =
          match lengthByte conn (bytes.headD 0) with
          | .error r => .error r
          | .ok (false, conn) => .ok conn
          | .ok (true, conn) => lengthDone h conn := by
        rw [takeByte, if_neg hcmd, if_pos hcount]
      split
      · rename_i r hl
        rw [hl] at hbyte
        exact .inl ⟨lengthByte_error hl, hr.refuse hf hd hbyte⟩
      · rename_i c hl
        rw [hl] at hbyte
        obtain ⟨-, -, -, hread, -, -, hlast⟩ := lengthByte_at hr.place hl
        have hnext := hr.step hf hd hs hbyte
        rw [Frame.next, if_neg (by omega), if_neg (by simpa using hlast)] at hnext
        exact readLengthLoop_follows left (by omega) hnext
      · rename_i c hl
        rw [hl] at hbyte
        obtain ⟨-, -, -, hread, -, -, hlast⟩ := lengthByte_at hr.place hl
        split
        · rename_i r hdone
          exact .inl ⟨lengthDone_error hdone, hr.refuse hf hd (hbyte.trans hdone)⟩
        · rename_i c' hdone
          have hnext := hr.step hf hd hs (hbyte.trans hdone)
          rw [Frame.next, if_neg (by omega), if_pos (hlast.mp rfl)] at hnext
          exact ⟨_, ⟨_, rfl⟩, hnext⟩

theorem readLength_follows (hr : Reached h value size f conn net) :
    Follows h value size (∃ k, · = .body k) (readLength h conn net) := by
  unfold readLength
  cases f with
  | broken => exact hr.place.elim
  | body left =>
    rw [if_neg (by have := hr.place.2.1; omega)]
    exact ⟨_, ⟨left, rfl⟩, hr⟩
  | length read sum =>
    rw [if_pos (by rw [hr.place.2.1]; omega)]
    exact readLengthLoop_follows 5 (by omega) hr

theorem readPayload_follows : ∀ (left : Nat) {conn : Conn σ} {net : List NetEvent} {k : Nat},
    k ≤ left → Reached h value size (.body k) conn net →
    Follows h value size (· = .body 0) (readPayload left conn net)
  | 0, conn, net, k, hfuel, hr => by
    obtain rfl : k = 0 := by omega
    exact ⟨_, rfl, hr⟩
  | left + 1, conn, net, k, hfuel, hr => by
    have hk := hr.place.2.2
    unfold readPayload
    by_cases hpos : 0 < conn.inPacket.toProcess
    · rw [if_pos hpos]
      have hf : Frame.body k ≠ .body 0 := by
        rw [Ne, Frame.body.injEq]
        omega
      split
      · rename_i net' hn
        exact hr.wait hf hn
      · rename_i bytes net' hn
        obtain ⟨hd, hs, hlen, hle⟩ := netRead_some hpos hn
        obtain ⟨k', rfl⟩ : ∃ k', k = bytes.length + k' := ⟨k - bytes.length, by omega⟩
        have hrun := hr.run
        have hcontrol := hr.control
        rw [hd, proceed_payload bytes hr.live hr.place] at hrun
        rw [hd, controlBytes_body] at hcontrol
        refine readPayload_follows left (by omega)
          ⟨⟨hr.live.sock, hr.live.state⟩, ⟨hr.place.1, hr.place.2.1, ?_⟩, hcontrol, ?_, hrun⟩
        · simp only [payloadBytes]
          omega
        · have := hr.progress
          omega
    · rw [if_neg hpos]
      obtain rfl : k = 0 := by omega
      exact ⟨_, rfl, hr⟩

theorem readCommand_follows (hr : Resting h f conn net) (hl : Live h conn) :
    Follows h (consume h conn (delivered net)) (scriptSize net) (fun _ => True)
      (readCommand h conn net) := by
  unfold readCommand
  rcases hr.place with ⟨rfl, hidle⟩ | ⟨hf, hat, -⟩
  · have hzero : conn.inPacket.command = 0 := by rw [hidle]; rfl
    rw [if_neg (by simpa using hzero)]
    split
    · rename_i net' hn
      obtain ⟨hd, hs⟩ := netRead_none hn
      exact .inr ⟨rfl, ⟨.body 0, .inl ⟨rfl, hidle⟩, by rw [hd]; exact hr.control⟩, hs, by rw [hd]⟩
    · rename_i bytes net' hn
      obtain ⟨hd, hs⟩ := netRead_one hn
      have hcontrol := hr.control
      rw [hd, controlBytes, if_pos rfl] at hcontrol
      have hbyte : takeByte h conn (bytes.headD 0) = commandByte h conn (bytes.headD 0) := by
        rw [takeByte, if_pos hzero]
      split
      · rename_i r hc
        rw [hc] at hbyte
        rw [hd, consume_cons hl, hbyte]
        exact .inl ⟨commandByte_error hc, rfl⟩
      · rename_i c hc
        rw [hc] at hbyte
        rw [hd, consume_cons hl, hbyte]
        unfold commandByte at hc
        simp only at hc
        split at hc
        · cases hc
        · cases hc
          -- The only place where a zero command would be forgotten.
          have hne : bytes.headD 0 ≠ 0 := fun hz => hcontrol (by rw [hz]; exact List.mem_cons_self)
          refine ⟨.length 0 0, trivial, ⟨hl.sock, hl.state⟩, ⟨hne, ?_, Nat.zero_le _, ?_, ?_⟩,
            fun hm => hcontrol (List.mem_cons_of_mem _ hm), .inl hs, rfl⟩
          · simp only [hidle]
            rfl
          · simp only [hidle]
            rfl
          · simp only [hidle]
            rfl
  · have hcmd : conn.inPacket.command ≠ 0 := by
      cases f with
      | broken => exact hat.elim
      | body left => exact hat.1
      | length read sum => exact hat.1
    rw [if_pos hcmd]
    exact ⟨f, trivial, hl, hat, hr.control, .inr ⟨rfl, hf⟩, proceed_at hat hf _⟩

theorem Follows.bind {stage stage' : Frame → Prop}
    {part : Except (Return σ × List NetEvent) (Conn σ × List NetEvent)}
    {next : Conn σ × List NetEvent → Except (Return σ × List NetEvent) (Conn σ × List NetEvent)}
    (hp : Follows h value size stage part)
    (hnext : ∀ f conn net, stage f → Reached h value size f conn net →
      Follows h value size stage' (next (conn, net))) :
    Follows h value size stage' (part >>= next) := by
  match part, hp with
  | .error _, hp => exact hp
  | .ok (conn, net), ⟨f, hf, hr⟩ => exact hnext f conn net hf hr

theorem readBlocks_follows (hr : Resting h f conn net) (hl : Live h conn) :
    Follows h (consume h conn (delivered net)) (scriptSize net) (· = .body 0)
      (readBlocks h conn net) := by
  refine (readCommand_follows hr hl).bind fun f conn net _ hr => ?_
  refine (readLength_follows hr).bind fun f conn net ⟨k, hk⟩ hr => ?_
  subst hk
  exact readPayload_follows _ (le_of_eq hr.place.2.2.symm) hr

/-- **Every call follows the stream.** -/
theorem packetRead_follows (hr : Resting h f conn net) (hl : Live h conn) :
    ∀ {rc : Rc} {c : Conn σ} {net' : List NetEvent}, packetRead h conn net = ((rc, c), net') →
      rc ≠ Rc.success ∧ (some rc, c) = consume h conn (delivered net) ∨
      rc = Rc.success ∧ (∃ f, Resting h f c net') ∧ scriptSize net' ≤ scriptSize net - 1 ∧
        consume h c (delivered net') = consume h conn (delivered net) := by
  intro rc c net' hcall
  have hblocks := readBlocks_follows hr hl
  rw [packetRead, if_neg (by rw [hl.sock]; decide), if_neg hl.state] at hcall
  split at hcall
  · rename_i r hb
    rw [hb, hcall] at hblocks
    exact hblocks
  · rename_i conn' net₁ hb
    rw [hb] at hblocks
    obtain ⟨f, rfl, hreached⟩ := hblocks
    cases hcall
    have hdone : settle h conn' = if (packetDone h conn').1 ≠ Rc.success
        then .error (packetDone h conn') else .ok (packetDone h conn').2 := by
      rw [settle, if_pos ⟨hreached.place.2.1, hreached.place.2.2⟩]
    have hrun := hreached.run
    rw [proceed, hdone] at hrun
    by_cases hok : (packetDone h conn').1 = Rc.success
    · rw [if_neg (by simpa using hok)] at hrun
      refine .inr ⟨hok, ⟨.body 0, .inl ⟨rfl, rfl⟩, hreached.control⟩, ?_, hrun⟩
      have := hreached.progress
      simp only [ne_eq, not_true, and_false, or_false] at this
      omega
    · rw [if_pos hok] at hrun
      exact .inl ⟨hok, hrun⟩

end Parts

/-! ## Calls and the stream -/

theorem packetReads_pending {conn : Conn σ} (hs : h.hasSock conn.mosq = true)
    (hp : h.state conn.mosq = .connectPending) (n : Nat) (net : List NetEvent) :
    packetReads h n conn net = (none, conn) := by
  induction n with
  | zero => rfl
  | succ n ih =>
    have hcall : packetRead h conn net = ((Rc.success, conn), net) := by
      rw [packetRead, if_neg (by rw [hs]; decide), if_pos hp]
    unfold packetReads
    simp only [hcall]
    rw [if_neg (by simp)]
    exact ih

/-- **The calls read the stream.** One call for every byte and every `EAGAIN` is enough. -/
theorem packetReads_eq : ∀ (n : Nat) {f : Frame} {conn : Conn σ} {net : List NetEvent},
    Resting h f conn net → scriptSize net < n ∨ net = [] ∧ h.hasSock conn.mosq = true →
    packetReads h n conn net = consume h conn (delivered net)
  | 0, f, conn, net, hr, hn => by
    obtain ⟨rfl, hs⟩ := hn.resolve_left (Nat.not_lt_zero _)
    simp only [packetReads, delivered, consume, hs, if_true]
  | n + 1, f, conn, net, hr, hn => by
    by_cases hs : h.hasSock conn.mosq = true
    · by_cases hp : h.state conn.mosq = .connectPending
      · rw [packetReads_pending hs hp]
        cases hd : delivered net with
        | nil => rw [consume, if_pos hs]
        | cons b stream => rw [consume, if_neg (by rw [hs]; decide), if_pos hp]
      · obtain ⟨⟨⟨rc, c⟩, net'⟩, hcall⟩ : ∃ r, packetRead h conn net = r := ⟨_, rfl⟩
        unfold packetReads
        simp only [hcall]
        rcases packetRead_follows hr ⟨hs, hp⟩ hcall with ⟨hrc, hv⟩ | ⟨hrc, ⟨f', hr'⟩, hsize, hv⟩
        · rw [if_pos hrc]
          exact hv
        · rw [if_neg (by simpa using hrc), ← hv]
          refine packetReads_eq n hr' ?_
          -- With nothing left in the script the call has changed nothing.
          cases hnet : net with
          | nil =>
            have hnil : net' = [] := by
              rw [hnet] at hsize
              match net', hsize with
              | [], _ => rfl
            rw [hnil, hnet] at hv
            have hc : c = conn := congrArg Prod.snd hv
            exact .inr ⟨hnil, by rw [hc]; exact hs⟩
          | cons e net₀ =>
            have hpos : 0 < scriptSize (e :: net₀) := by
              cases e with
              | again => exact Nat.succ_pos _
              | bytes first more => exact Nat.succ_pos _
            rw [hnet] at hsize hn
            have hlt := hn.resolve_right (by simp)
            exact .inl (by omega)
    · have hcall : packetRead h conn net = ((Rc.noConn, conn), net) := by
        rw [packetRead, if_pos (by simpa using hs)]
      unfold packetReads
      simp only [hcall]
      rw [if_pos (by decide)]
      cases hd : delivered net with
      | nil => rw [consume, if_neg hs]
      | cons b stream => rw [consume, if_pos (by simpa using hs)]

/-- A client before its first packet. -/
def Conn.start (mosq : σ) : Conn σ := ⟨mosq, packetCleanup, []⟩

/-- The whole stream in one delivery. -/
def atOnce : Bytes → List NetEvent
  | [] => []
  | byte :: stream => [.bytes byte stream]

theorem delivered_atOnce (stream : Bytes) : delivered (atOnce stream) = stream := by
  cases stream with
  | nil => rfl
  | cons byte stream => exact List.append_nil _

/-- **The reader does not depend on how the network splits the stream.** -/
theorem packetReads_chunking (h : Host σ) (mosq : σ) {stream : Bytes}
    (hcontrol : 0 ∉ controlBytes (.body 0) stream) {net : List NetEvent}
    (hnet : delivered net = stream) :
    ∃ calls, ∀ n, calls ≤ n → packetReads h n (Conn.start mosq) net =
      packetReads h n (Conn.start mosq) (atOnce stream) := by
  refine ⟨scriptSize net + scriptSize (atOnce stream) + 1, fun n hn => ?_⟩
  have hidle : ∀ net', delivered net' = stream → Resting h (.body 0) (Conn.start mosq) net' :=
    fun net' hd => ⟨.inl ⟨rfl, rfl⟩, by rw [hd]; exact hcontrol⟩
  have hat := delivered_atOnce stream
  rw [packetReads_eq n (hidle net hnet) (.inl (by omega)),
    packetReads_eq n (hidle _ hat) (.inl (by omega)), hnet, hat]

/-- A broker that counts packets and takes the third one for an error. -/
def Host.counting : Host Nat where
  withBroker := true
  hasSock _ := true
  state _ := .active
  bridge _ := false
  protocol _ := .mqtt5
  maxPacketSize := 0
  sendDisconnect _ n := n
  handlePacket _ n := (if n = 2 then Rc.protocol else Rc.success, n + 1)

/-- A PUBLISH of three bytes and two PINGREQ, cut inside the header and inside the payload. -/
theorem packetReads_chunking_cut : ∃ calls, ∀ n, calls ≤ n →
    packetReads Host.counting n (Conn.start 0)
      [.bytes 0x30 [], .again, .bytes 3 [0], .again, .again, .bytes 1 [97, 0xC0], .bytes 0 [0xC0, 0]]
      = packetReads Host.counting n (Conn.start 0)
        (atOnce [0x30, 3, 0, 1, 97, 0xC0, 0, 0xC0, 0]) :=
  packetReads_chunking Host.counting 0 (by decide) rfl

/-! ## A packet in the stream -/

theorem lengthByte_eq {conn : Conn σ} {read sum : Nat} (ha : At (.length read sum) conn.inPacket)
    (hread : read < 4) {n : Nat} (hn : n < 256) :
    lengthByte conn (UInt8.ofNat n) = .ok (decide (n < 128), { conn with inPacket :=
      { conn.inPacket with remainingCount := -(read + 1 : Nat)
                           remainingLength := sum + n % 128 * 128 ^ read
                           remainingMult := 128 ^ (read + 1) } }) := by
  obtain ⟨-, hcount, -, hmult, hsum⟩ := ha
  have hto : (UInt8.ofNat n).toNat = n := by
    rw [UInt8.toNat_ofNat']
    omega
  have hlast : decide (UInt8.ofNat n &&& 128 = 0) = decide (n < 128) := by
    rw [decide_eq_decide, top_bit_clear, hto]
  have hcount' : -(read : Int) - 1 = -(read + 1 : Nat) := by omega
  unfold lengthByte
  simp only [hcount, hmult, hsum, hcount', hlast, toNat_low_bits, hto, Nat.pow_succ]
  rw [if_neg (by omega)]

/-- The packet when the digits of its remaining length are read. -/
def Conn.decoded (conn : Conn σ) (digits word : Nat) : Conn σ :=
  { conn with inPacket := { conn.inPacket with remainingCount := -digits
                                               remainingMult := 128 ^ digits
                                               remainingLength := word } }

/-- The digits of a remaining length are read to its end. -/
theorem consume_length : ∀ (n : Nat) {word read : Nat} {conn : Conn σ}, Live h conn →
    At (.length read conn.inPacket.remainingLength) conn.inPacket → word < 128 ^ (n + 1) →
    read + n < 4 → ∀ stream, consume h conn (varintDigits (n + 1) word ++ stream) =
      match lengthDone h (conn.decoded (read + (varintDigits (n + 1) word).length)
        (conn.inPacket.remainingLength + word * 128 ^ read)) with
      | .error r => (some r.1, r.2)
      | .ok c => proceed h c stream := by
  intro n
  have hdone : ∀ {word read : Nat} {conn : Conn σ}, Live h conn →
      At (.length read conn.inPacket.remainingLength) conn.inPacket → word < 128 → read < 4 →
      ∀ stream, consume h conn (UInt8.ofNat word :: stream) =
        match lengthDone h (conn.decoded (read + 1)
          (conn.inPacket.remainingLength + word * 128 ^ read)) with
        | .error r => (some r.1, r.2)
        | .ok c => proceed h c stream := by
    intro word read conn hl ha hword hread stream
    have hbyte := lengthByte_eq ha hread (show word < 256 by omega)
    have hcount : conn.inPacket.remainingCount ≤ 0 := by
      rw [ha.2.1]
      omega
    have ht : takeByte h conn (UInt8.ofNat word) = lengthDone h (conn.decoded (read + 1)
        (conn.inPacket.remainingLength + word * 128 ^ read)) := by
      rw [takeByte, if_neg ha.1, if_pos hcount, hbyte, decide_eq_true hword,
        Nat.mod_eq_of_lt hword]
      rfl
    rw [consume_cons hl, ht]
  induction n with
  | zero =>
    intro word read conn hl ha hword hread
    have hsmall : word < 128 := by simpa using hword
    rw [varintDigits, if_pos hsmall]
    exact hdone hl ha hsmall hread
  | succ n ih =>
    intro word read conn hl ha hword hread
    rw [varintDigits]
    by_cases hsmall : word < 128
    · rw [if_pos hsmall]
      exact hdone hl ha hsmall (by omega)
    · rw [if_neg hsmall]
      have hdiv : word / 128 < 128 ^ (n + 1) := by
        rw [Nat.div_lt_iff_lt_mul (by omega)]
        exact hword
      have hbyte := lengthByte_eq ha (by omega) (show word % 128 + 128 < 256 by omega)
      have hcount : conn.inPacket.remainingCount ≤ 0 := by
        rw [ha.2.1]
        omega
      rw [decide_eq_false (by omega), show (word % 128 + 128) % 128 = word % 128 by omega] at hbyte
      obtain ⟨c, hc⟩ : ∃ c : Conn σ, c = conn.decoded (read + 1)
        (conn.inPacket.remainingLength + word % 128 * 128 ^ read) := ⟨_, rfl⟩
      have hat : At (.length (read + 1) c.inPacket.remainingLength) c.inPacket := by
        rw [hc]
        exact ⟨ha.1, rfl, by omega, rfl, rfl⟩
      have ht : takeByte h conn (UInt8.ofNat (word % 128 + 128)) = .ok c := by
        rw [takeByte, if_neg ha.1, if_pos hcount, hbyte, hc]
        rfl
      have hlive : Live h c := by
        rw [hc]
        exact ⟨hl.sock, hl.state⟩
      intro stream
      have hsum : conn.inPacket.remainingLength + word % 128 * 128 ^ read +
          word / 128 * 128 ^ (read + 1) = conn.inPacket.remainingLength + word * 128 ^ read := by
        rw [Nat.pow_succ, Nat.add_assoc, Nat.mul_comm (128 ^ read) 128, ← Nat.mul_assoc,
          ← Nat.add_mul, Nat.mod_add_div' word 128]
      have hdecoded : c.decoded (read + 1 + (varintDigits (n + 1) (word / 128)).length)
          (c.inPacket.remainingLength + word / 128 * 128 ^ (read + 1)) =
          conn.decoded (read + ((varintDigits (n + 1) (word / 128)).length + 1))
            (conn.inPacket.remainingLength + word * 128 ^ read) := by
        rw [hc, ← hsum, Nat.add_right_comm read 1, Nat.add_assoc read]
        rfl
      rw [List.cons_append, consume_cons hl, ht]
      show proceed h c _ = _
      rw [proceed_at hat (by simp), ih hlive hat hdiv (by omega), hdecoded, List.length_cons]

/-- **The library reads a packet** as it was written. -/
theorem consume_packet (hb : h.withBroker = false) {conn : Conn σ} (hl : Live h conn)
    (hidle : conn.inPacket = packetCleanup) {command : UInt8} (hc : command ≠ 0)
    {payload : Bytes} (hlen : payload.length < 2 ^ 28) (stream : Bytes) :
    let packet : Incoming := ⟨command, payload.length, payload⟩
    let r := h.handlePacket packet conn.mosq
    let c : Conn σ := ⟨r.2, packetCleanup, conn.handled ++ [packet]⟩
    consume h conn (command :: (varintBytes payload.length ++ (payload ++ stream))) =
      if r.1 ≠ Rc.success then (some r.1, c) else consume h c stream := by
  obtain ⟨mosq, p, handled⟩ := conn
  simp only at hidle
  subst hidle
  intro packet r c
  obtain ⟨c₁, hc₁⟩ : ∃ c₁ : Conn σ, c₁ = ⟨mosq, { packetCleanup with command }, handled⟩ :=
    ⟨_, rfl⟩
  have ht : takeByte h ⟨mosq, packetCleanup, handled⟩ command = .ok c₁ := by
    rw [takeByte, if_pos (show packetCleanup.command = 0 from rfl), commandByte, hc₁]
    simp only [commandRefused, hb, Bool.false_and, Bool.false_eq_true, if_false]
  have hat : At (.length 0 c₁.inPacket.remainingLength) c₁.inPacket := by
    rw [hc₁]
    exact ⟨hc, rfl, Nat.zero_le _, rfl, rfl⟩
  have hlive : Live h c₁ := by
    rw [hc₁]
    exact ⟨hl.sock, hl.state⟩
  have hrun := consume_length 3 hlive hat hlen (by omega) (payload ++ stream)
  have hpos : (0 : Int) < (varintDigits 4 payload.length).length := by
    exact_mod_cast length_varintDigits_pos 3 payload.length
  obtain ⟨c₂, hc₂⟩ : ∃ c₂ : Conn σ, c₂ = { c₁ with inPacket :=
      { c₁.inPacket with remainingCount := (varintDigits 4 payload.length).length
                         remainingMult := 128 ^ (varintDigits 4 payload.length).length
                         remainingLength := payload.length, toProcess := payload.length } } :=
    ⟨_, rfl⟩
  have hlength : lengthDone h (c₁.decoded (0 + (varintDigits 4 payload.length).length)
      (c₁.inPacket.remainingLength + payload.length * 128 ^ 0)) = .ok c₂ := by
    rw [hc₂, hc₁]
    simp only [lengthDone, Conn.decoded, hb, Bool.false_eq_true, false_and, if_false, neg_neg,
      Nat.zero_add, Nat.pow_zero, Nat.mul_one, packetCleanup]
  rw [hlength] at hrun
  have hbody : At (.body (payload.length + 0)) c₂.inPacket := by
    rw [hc₂, hc₁]
    exact ⟨hc, hpos, rfl⟩
  have hlive₂ : Live h c₂ := by
    rw [hc₂]
    exact ⟨hlive.sock, hlive.state⟩
  have hp : packetDone h (payloadBytes c₂ payload) = (r.1, c) := by
    rw [hc₂, hc₁]
    rfl
  have hcomplete : 0 < (payloadBytes c₂ payload).inPacket.remainingCount ∧
      (payloadBytes c₂ payload).inPacket.toProcess = 0 := by
    rw [hc₂]
    exact ⟨hpos, Nat.sub_self _⟩
  rw [consume_cons hl, ht]
  show proceed h c₁ _ = _
  rw [proceed_at hat (by simp), varintBytes, hrun]
  simp only
  rw [proceed_payload payload hlive₂ hbody, proceed, settle, if_pos hcomplete]
  simp only [hp]
  split
  · rename_i e he
    split at he
    · rename_i hne
      cases he
      rw [if_pos hne]
    · cases he
  · rename_i e he
    split at he
    · cases he
    · rename_i hne
      cases he
      rw [if_neg hne]

theorem Frame.next_digit {read sum n : Nat} (hread : read < 4) (hn : n < 256) :
    (Frame.length read sum).next (UInt8.ofNat n) =
      if n < 128 then .body (sum + n % 128 * 128 ^ read)
      else .length (read + 1) (sum + n % 128 * 128 ^ read) := by
  have hto : (UInt8.ofNat n).toNat = n := by
    rw [UInt8.toNat_ofNat']
    omega
  rw [Frame.next, if_neg (by omega), toNat_low_bits, hto]
  by_cases hs : n < 128
  · rw [if_pos ((top_bit_clear _).mpr (by omega)), if_pos hs]
  · rw [if_neg fun h => hs (by have := (top_bit_clear _).mp h; omega), if_neg hs]

theorem controlBytes_digits : ∀ (n : Nat) {word read sum : Nat} {stream : Bytes},
    word < 128 ^ (n + 1) → read + n < 4 →
    controlBytes (.length read sum) (varintDigits (n + 1) word ++ stream) =
      controlBytes (.body (sum + word * 128 ^ read)) stream := by
  have hlast : ∀ {word read sum : Nat} {stream : Bytes}, word < 128 → read < 4 →
      controlBytes (.length read sum) (UInt8.ofNat word :: stream) =
        controlBytes (.body (sum + word * 128 ^ read)) stream := by
    intro word read sum stream hword hread
    rw [controlBytes, if_neg (by simp), Frame.next_digit hread (by omega), if_pos hword,
      Nat.mod_eq_of_lt hword]
  intro n
  induction n with
  | zero =>
    intro word read sum stream hword hread
    have hsmall : word < 128 := by simpa using hword
    rw [varintDigits, if_pos hsmall]
    exact hlast hsmall hread
  | succ n ih =>
    intro word read sum stream hword hread
    rw [varintDigits]
    by_cases hsmall : word < 128
    · rw [if_pos hsmall]
      exact hlast hsmall (by omega)
    · have hdiv : word / 128 < 128 ^ (n + 1) := by
        rw [Nat.div_lt_iff_lt_mul (by omega)]
        exact hword
      rw [if_neg hsmall, List.cons_append, controlBytes, if_neg (by simp),
        Frame.next_digit (by omega) (by omega), if_neg (by omega), ih hdiv (by omega),
        show (word % 128 + 128) % 128 = word % 128 by omega, Nat.pow_succ, Nat.add_assoc,
        Nat.mul_comm (128 ^ read) 128, ← Nat.mul_assoc, ← Nat.add_mul, Nat.mod_add_div' word 128]

theorem controlBytes_packet (command : UInt8) {payload : Bytes} (hlen : payload.length < 2 ^ 28)
    (stream : Bytes) :
    controlBytes (.body 0) (command :: (varintBytes payload.length ++ (payload ++ stream))) =
      command :: controlBytes (.body 0) stream := by
  have hbody := controlBytes_body payload stream 0
  rw [controlBytes, if_pos rfl, Frame.next, varintBytes, controlBytes_digits 3 hlen (by omega),
    Nat.zero_add, Nat.pow_zero, Nat.mul_one]
  exact congrArg _ hbody

/-- **A packet is read from the network** in as many calls as its delivery takes. -/
theorem packetReads_packet (hb : h.withBroker = false) {conn : Conn σ} (hl : Live h conn)
    (hidle : conn.inPacket = packetCleanup) {command : UInt8} (hc : command ≠ 0)
    {payload : Bytes} (hlen : payload.length < 2 ^ 28) {net : List NetEvent}
    (hnet : delivered net = command :: (varintBytes payload.length ++ payload)) {n : Nat}
    (hn : scriptSize net < n) :
    let packet : Incoming := ⟨command, payload.length, payload⟩
    (packetReads h n conn net).2 =
      ⟨(h.handlePacket packet conn.mosq).2, packetCleanup, conn.handled ++ [packet]⟩ := by
  intro packet
  have hrun := consume_packet hb hl hidle hc hlen []
  have hcontrol := controlBytes_packet command hlen []
  rw [List.append_nil] at hrun hcontrol
  have hrest : Resting h (.body 0) conn net := by
    refine ⟨.inl ⟨rfl, hidle⟩, ?_⟩
    rw [hnet, hcontrol]
    simpa [controlBytes] using hc.symm
  rw [packetReads_eq n hrest (.inl hn), hnet, hrun]
  split <;> rfl

end Stream

end AdaptiveMqtt.Packet
