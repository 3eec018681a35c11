import AdaptiveMqtt.Packet.Stream

/-!
# Reading packets from a websocket

The branch `LWS_CALLBACK_RECEIVE` of `callback_mqtt` in `src/websockets.c`: the framing of
`packet__read` once more, over the bytes of a frame. Between the frames a packet is kept in
`in_packet` the same way.

Both readers go through the same steps byte by byte (`scan`), whatever frames or reads the
bytes come in, and differ in their checks only. `packet__read` looks at the length of a packet
once it is known, by its command and by `max_packet_size`; the callback does not. A first
command that is not CONNECT is refused by the callback in the state `new`, and by
`packet__read` in the state `connected`.
-/

namespace AdaptiveMqtt.Packet

open Lib

/-! ## The model -/

/-- A client of a websockets listener: what the callback calls besides `Host`. Nobody
connects through a listener's client, so it is never `connect_pending`. -/
structure WsHost (σ : Type) extends Host σ where
  hasOutPacket : σ → Bool
  setDisconnectWs : σ → σ
  doDisconnect : σ → σ
  broker : withBroker = true
  accepted : ∀ mosq, state mosq ≠ .connectPending

/-- The client, with what `handle__packet` returned for the packets that were handled. -/
structure WsConn (σ : Type) extends Conn σ where
  returned : List Rc

section Receive

variable {σ : Type} (h : WsHost σ)

/-- Clients must send CONNECT as their first command. -/
def wsCommandRefused (mosq : σ) (byte : UInt8) : Bool :=
  h.state mosq = .new && byte &&& 0xF0 ≠ 0x10

/-- The command byte: a return of the callback, or what it goes on with. -/
def receiveCommand (conn : Conn σ) (buf : Bytes) : Except (Int × Conn σ) (Conn σ × Bytes) :=
  if conn.inPacket.command ≠ 0 then .ok (conn, buf)
  else
    match buf with
    | [] => .error (0, conn)
    | byte :: buf =>
      let conn' := { conn with inPacket := { conn.inPacket with command := byte } }
      if wsCommandRefused h conn.mosq byte then .error (-1, conn') else .ok (conn', buf)

/-- The `do … while` over the remaining length, and the room for the payload. -/
def receiveLengthLoop : Conn σ → Bytes → Except (Int × Conn σ) (Conn σ × Bytes)
  | conn, [] => .error (0, conn)
  | conn, byte :: buf =>
    match lengthByte conn byte with
    | .error (_, conn) => .error (-1, conn)
    | .ok (false, conn) => receiveLengthLoop conn buf
    | .ok (true, conn) => .ok ({ conn with inPacket :=
        { conn.inPacket with remainingCount := -conn.inPacket.remainingCount
                             toProcess := conn.inPacket.remainingLength } }, buf)

def receiveLength (conn : Conn σ) (buf : Bytes) : Except (Int × Conn σ) (Conn σ × Bytes) :=
  if conn.inPacket.remainingCount ≤ 0 then receiveLengthLoop conn buf else .ok (conn, buf)

def receivePayload (conn : Conn σ) (buf : Bytes) : Except (Int × Conn σ) (Conn σ × Bytes) :=
  let left := conn.inPacket.toProcess
  if left > 0 then
    if buf.length ≥ left then .ok (payloadBytes conn (buf.take left), buf.drop left)
    else .error (0, payloadBytes conn buf)
  else .ok (conn, buf)

/-- A turn of the loop up to `handle__packet`. -/
def receiveBlocks (conn : Conn σ) (buf : Bytes) : Except (Int × Conn σ) (Conn σ × Bytes) := do
  let (conn, buf) ← receiveCommand h conn buf
  let (conn, buf) ← receiveLength conn buf
  receivePayload conn buf

/-- `handle__packet` and what is done about its result: whether the callback returns. -/
def receiveDone (conn : WsConn σ) : Bool × WsConn σ :=
  let r := packetDone h.toHost conn.toConn
  let done : WsConn σ := { r.2 with returned := conn.returned ++ [r.1] }
  if r.1 ≠ Rc.success ∧ h.hasOutPacket done.mosq then
    let mosq := if h.state done.mosq ≠ .disconnecting then h.setDisconnectWs done.mosq
      else done.mosq
    (false, { done with mosq })
  else if r.1 ≠ Rc.success then (true, { done with mosq := h.doDisconnect done.mosq })
  else (false, done)

/-- The `while` over the frame. Every turn takes a byte. -/
def receiveLoop : Nat → WsConn σ → Bytes → Int × WsConn σ
  | 0, conn, _ => (0, conn)
  | _ + 1, conn, [] => (0, conn)
  | n + 1, conn, byte :: buf =>
    match receiveBlocks h conn.toConn (byte :: buf) with
    | .error (rc, conn') => (rc, { conn' with returned := conn.returned })
    | .ok (conn', buf) =>
      match receiveDone h { conn' with returned := conn.returned } with
      | (true, conn) => (-1, conn)
      | (false, conn) => receiveLoop n conn buf

def callbackReceive (conn : WsConn σ) (frame : Bytes) : Int × WsConn σ :=
  receiveLoop h frame.length conn frame

/-- The frames of a connection, which ends when the callback returns -1. -/
def callbackReceives : WsConn σ → List Bytes → Int × WsConn σ
  | conn, [] => (0, conn)
  | conn, frame :: frames =>
    let r := callbackReceive h conn frame
    if r.1 = 0 then callbackReceives r.2 frames else r

end Receive

/-! ## The two readers -/

/-- What became of a stream: all of it was read, a packet was not taken, or the handling of
the last packet failed. -/
inductive Outcome where
  | pending
  | rejected
  | failed
  deriving DecidableEq, Repr

section Verdict

variable {σ : Type} (h : Host σ)

def readCalls : Nat → Conn σ → List NetEvent → Outcome × Conn σ
  | 0, conn, _ => (.pending, conn)
  | n + 1, conn, net =>
    if delivered net = [] then (.pending, conn)
    else
      let r := packetRead h conn net
      if r.1.1 ≠ Rc.success then
        (if r.1.2.handled.length = conn.handled.length then .rejected else .failed, r.1.2)
      else readCalls n r.1.2 r.2

/-- The outcome and the packets that went to `handle__packet`. -/
def readVerdict (r : Outcome × Conn σ) : Outcome × List Incoming := (r.1, r.2.handled)

/-- The same for the callback, up to the first packet whose handling fails. -/
def receiveVerdict (r : Int × WsConn σ) : Outcome × List Incoming :=
  match r.2.returned.findIdx? (· ≠ Rc.success) with
  | some k => (.failed, r.2.handled.take (k + 1))
  | none => (if r.1 = 0 then .pending else .rejected, r.2.handled)

end Verdict

/-- A client before its first frame. -/
def WsConn.start {σ : Type} (mosq : σ) : WsConn σ := { Conn.start mosq with returned := [] }

/-- Both readers pass on the same packets and reject at the same one, however the stream is
split into frames and into reads. -/
def ReadersAgree {σ : Type} (h : WsHost σ) (mosq : σ) (stream : Bytes) : Prop :=
  ∀ (frames : List Bytes) (net : List NetEvent) (calls : Nat),
    frames.flatten = stream → delivered net = stream → scriptSize net ≤ calls →
      receiveVerdict (callbackReceives h (WsConn.start mosq) frames) =
        readVerdict (readCalls h.toHost calls (Conn.start mosq) net)

/-! ## The steps the two share -/

/-- The remaining length is known: the payload has room. -/
def Conn.sized {σ : Type} (conn : Conn σ) : Conn σ := { conn with inPacket :=
  { conn.inPacket with remainingCount := -conn.inPacket.remainingCount
                       toProcess := conn.inPacket.remainingLength } }

/-- All of the packet is there. -/
def Conn.Complete {σ : Type} (conn : Conn σ) : Prop :=
  0 < conn.inPacket.remainingCount ∧ conn.inPacket.toProcess = 0

instance {σ : Type} (conn : Conn σ) : Decidable conn.Complete := instDecidableAnd

/-- The checks of a reader: of the socket, of the command byte and of the remaining length. -/
structure Checks (σ : Type) where
  gone : σ → Bool
  command : σ → UInt8 → Bool
  length : σ → InPacket → Bool

section Scan

variable {σ : Type} (k : Checks σ) (h : Host σ)

/-- A byte of a packet. The first since the reader last stopped is the command byte as long as
`in_packet.command` is 0, which it stays after a command byte of 0. -/
def Checks.take (begun : Bool) (conn : Conn σ) (byte : UInt8) : Option (Conn σ) :=
  if conn.inPacket.command = 0 ∧ begun = false then
    if k.command conn.mosq byte then none
    else some { conn with inPacket := { conn.inPacket with command := byte } }
  else if conn.inPacket.remainingCount ≤ 0 then
    match lengthByte conn byte with
    | .error _ => none
    | .ok (false, c) => some c
    | .ok (true, c) => if k.length c.mosq c.sized.inPacket then none else some c.sized
  else some (payloadBytes conn [byte])

/-- A reader over the bytes, with the places where it stops for want of more. -/
def scan : Bool → Conn σ → List (Option UInt8) → Outcome × List Incoming
  | _, conn, [] => (.pending, conn.handled)
  | _, conn, none :: s => scan false conn s
  | begun, conn, some byte :: s =>
    if k.gone conn.mosq then (.rejected, conn.handled)
    else
      match k.take begun conn byte with
      | none => (.rejected, conn.handled)
      | some c =>
        if c.Complete then
          let r := packetDone h c
          if r.1 = Rc.success then scan false r.2 s else (.failed, r.2.handled)
        else scan true c s

/-- The rest, when a packet is complete. -/
def scanDone (conn : Conn σ) (s : List (Option UInt8)) : Outcome × List Incoming :=
  let r := packetDone h conn
  if r.1 = Rc.success then scan k h false r.2 s else (.failed, r.2.handled)

/-- The rest, after a byte. -/
def scanOn (conn : Conn σ) (s : List (Option UInt8)) : Outcome × List Incoming :=
  if conn.Complete then scanDone k h conn s else scan k h true conn s

end Scan

section Steps

variable {σ : Type} {k : Checks σ} {h : Host σ} {conn : Conn σ}

theorem scan_some {begun : Bool} {byte : UInt8} {s : List (Option UInt8)}
    (hgone : k.gone conn.mosq = false) : scan k h begun conn (some byte :: s) =
      match k.take begun conn byte with
      | none => (.rejected, conn.handled)
      | some c => scanOn k h c s := by
  rw [scan, hgone, if_neg (by decide)]
  rfl

theorem scan_gone (hgone : k.gone conn.mosq = true) (begun : Bool) (byte : UInt8)
    (s : List (Option UInt8)) :
    scan k h begun conn (some byte :: s) = (.rejected, conn.handled) := by
  rw [scan, if_pos hgone]

theorem scanOn_done (hdone : conn.Complete) (s : List (Option UInt8)) :
    scanOn k h conn s = scanDone k h conn s := if_pos hdone

theorem scanOn_open (hopen : ¬ conn.Complete) (s : List (Option UInt8)) :
    scanOn k h conn s = scan k h true conn s := if_neg hopen

/-- Where the command is known, nothing is lost by stopping. -/
theorem scan_stop (hcmd : conn.inPacket.command ≠ 0) (s : List (Option UInt8)) :
    scan k h false conn s = scan k h true conn s := by
  match s with
  | [] => rfl
  | none :: s => rfl
  | some byte :: s =>
    have htake : k.take false conn byte = k.take true conn byte := by
      simp only [Checks.take, hcmd, false_and, if_false]
    rw [scan, scan, htake]

theorem scan_command {byte : UInt8} {s : List (Option UInt8)} (hgone : k.gone conn.mosq = false)
    (hcmd : conn.inPacket.command = 0) (hopen : ¬ conn.Complete) :
    scan k h false conn (some byte :: s) =
      if k.command conn.mosq byte then (.rejected, conn.handled)
      else scan k h true { conn with inPacket := { conn.inPacket with command := byte } } s := by
  rw [scan_some hgone, Checks.take, if_pos ⟨hcmd, rfl⟩]
  by_cases hrefused : k.command conn.mosq byte = true
  · simp only [if_pos hrefused]
  · simp only [if_neg hrefused]
    exact if_neg hopen

theorem lengthByte_ok {c : Conn σ} {byte : UInt8} {last : Bool}
    (hl : lengthByte conn byte = .ok (last, c)) : c.mosq = conn.mosq ∧ c.handled = conn.handled ∧
      c.inPacket.command = conn.inPacket.command ∧
      c.inPacket.remainingCount = conn.inPacket.remainingCount - 1 ∧
      -4 ≤ c.inPacket.remainingCount := by
  unfold lengthByte at hl
  simp only at hl
  split at hl
  · cases hl
  · rename_i hcount
    cases hl
    exact ⟨rfl, rfl, rfl, rfl, by simp only; omega⟩

theorem scan_length {byte : UInt8} {s : List (Option UInt8)} (hgone : k.gone conn.mosq = false)
    (hcount : conn.inPacket.remainingCount ≤ 0) : scan k h true conn (some byte :: s) =
      match lengthByte conn byte with
      | .error _ => (.rejected, conn.handled)
      | .ok (false, c) => scan k h true c s
      | .ok (true, c) =>
        if k.length c.mosq c.sized.inPacket then (.rejected, conn.handled)
        else scanOn k h c.sized s := by
  rw [scan_some hgone, Checks.take, if_neg (fun hf => absurd hf.2 (by decide)), if_pos hcount]
  match hl : lengthByte conn byte with
  | .error _ => rfl
  | .ok (false, c) =>
    obtain ⟨-, -, -, hc, -⟩ := lengthByte_ok hl
    exact if_neg fun hf => by
      have := hf.1
      omega
  | .ok (true, c) =>
    by_cases hrefused : k.length c.mosq c.sized.inPacket = true
    · simp only [if_pos hrefused]
    · simp only [if_neg hrefused]

theorem payloadBytes_nil (conn : Conn σ) : payloadBytes conn [] = conn := by
  simp only [payloadBytes, List.append_nil, List.length_nil, Nat.sub_zero]

theorem scanOn_payload {s : List (Option UInt8)} (bytes : Bytes) {conn : Conn σ}
    (hgone : k.gone conn.mosq = false) (hcount : 0 < conn.inPacket.remainingCount)
    (hlen : bytes.length ≤ conn.inPacket.toProcess) :
    scanOn k h conn (bytes.map some ++ s) = scanOn k h (payloadBytes conn bytes) s := by
  induction bytes generalizing conn with
  | nil => rw [payloadBytes_nil, List.map_nil, List.nil_append]
  | cons byte bytes ih =>
    simp only [List.length_cons] at hlen
    have hopen : ¬ conn.Complete := fun hf => by
      have := hf.2
      omega
    have htake : k.take true conn byte = some (payloadBytes conn [byte]) := by
      unfold Checks.take
      rw [if_neg (fun hf => absurd hf.2 (by decide)), if_neg (by omega)]
    have hrec := @ih (payloadBytes conn [byte]) hgone hcount (by
      simp only [payloadBytes, List.length_singleton]
      omega)
    rw [payloadBytes_append] at hrec
    rw [scanOn_open hopen, List.map_cons, List.cons_append, scan_some hgone, htake]
    exact hrec

end Steps

/-! ## A part of a reader

The blocks of both readers work on what is left (of the frame, of the script) and either go on,
stop for want of more, or refuse the packet. `Takes` says that a block does what `scan` does,
for both. -/

section Takes

variable {σ E R : Type} (k : Checks σ) (h : Host σ)

/-- How a block ends: the client, and what is left if the reader only stops. -/
structure Halting (σ E R : Type) where
  halt : E → Conn σ × Option R
  tokens : R → List (Option UInt8)
  size : R → Nat

variable (e : Halting σ E R)

/-- A block that starts with this client and rest gives this verdict, with `onward` for what
comes after it. -/
def Takes (conn : Conn σ) (rest : R) (verdict : Outcome × List Incoming) (stage : Conn σ → Prop)
    (onward : Conn σ → List (Option UInt8) → Outcome × List Incoming) :
    Except E (Conn σ × R) → Prop
  | .ok (c, rest') => verdict = onward c (e.tokens rest') ∧ stage c ∧ c.mosq = conn.mosq ∧
      c.handled = conn.handled ∧ (e.size rest' < e.size rest ∨ c = conn ∧ rest' = rest)
  | .error r => (e.halt r).1.handled = conn.handled ∧
      match (e.halt r).2 with
      | some rest' => verdict = scan k h false (e.halt r).1 (e.tokens rest') ∧
          ¬ (e.halt r).1.Complete ∧ e.size rest' ≤ e.size rest - 1
      | none => verdict = (.rejected, conn.handled)

variable {k h e} {conn : Conn σ} {rest : R} {verdict : Outcome × List Incoming}
  {stage stage' : Conn σ → Prop}
  {onward onward' : Conn σ → List (Option UInt8) → Outcome × List Incoming}

theorem Takes.here (hv : verdict = onward conn (e.tokens rest)) (hs : stage conn) :
    Takes k h e conn rest verdict stage onward (.ok (conn, rest)) :=
  ⟨hv, hs, rfl, rfl, .inr ⟨rfl, rfl⟩⟩

/-- Something was read before. -/
theorem Takes.after {c : Conn σ} {rest' : R} {r : Except E (Conn σ × R)}
    (hr : Takes k h e c rest' verdict stage onward r) (hm : c.mosq = conn.mosq)
    (hh : c.handled = conn.handled) (hlt : e.size rest' < e.size rest) :
    Takes k h e conn rest verdict stage onward r := by
  match r, hr with
  | .ok (c', rest''), ⟨hv, hs, hm', hh', hsize⟩ =>
    refine ⟨hv, hs, hm'.trans hm, hh'.trans hh, .inl ?_⟩
    rcases hsize with hlt' | ⟨-, rfl⟩
    · omega
    · exact hlt
  | .error r, ⟨hh', hstop⟩ =>
    refine ⟨hh'.trans hh, ?_⟩
    rw [hh] at hstop
    match hhalt : (e.halt r).2 with
    | none =>
      simp only [hhalt] at hstop
      exact hstop
    | some rest'' =>
      simp only [hhalt] at hstop
      exact ⟨hstop.1, hstop.2.1, by omega⟩

/-- One block after another. -/
theorem Takes.bind {r : Except E (Conn σ × R)} {next : Conn σ × R → Except E (Conn σ × R)}
    (hr : Takes k h e conn rest verdict stage onward r)
    (hnext : ∀ c rest', stage c → c.mosq = conn.mosq →
      Takes k h e c rest' (onward c (e.tokens rest')) stage' onward' (next (c, rest'))) :
    Takes k h e conn rest verdict stage' onward' (r >>= next) := by
  match r, hr with
  | .error r, hr => exact hr
  | .ok (c, rest'), ⟨hv, hs, hm, hh, hsize⟩ =>
    have hn := hnext c rest' hs hm
    rw [← hv] at hn
    show Takes k h e conn rest verdict stage' onward' (next (c, rest'))
    rcases hsize with hlt | ⟨rfl, rfl⟩
    · exact hn.after hm hh hlt
    · exact hn

end Takes

/-! ## The callback -/

section Receive

variable {σ : Type} (h : WsHost σ)

/-- What the callback looks at. -/
def receiveChecks : Checks σ where
  gone _ := false
  command := wsCommandRefused h
  length _ _ := false

/-- A block of the callback returns 0 at the end of the frame. -/
def receiveHalting (σ : Type) (s : List (Option UInt8)) : Halting σ (Int × Conn σ) Bytes where
  halt r := (r.2, if r.1 = 0 then some [] else none)
  tokens buf := buf.map some ++ none :: s
  size := List.length

variable {h} {conn : Conn σ} {s : List (Option UInt8)}

theorem lengthByte_handled {byte : UInt8} {r : Return σ} (hl : lengthByte conn byte = .error r) :
    r.2.handled = conn.handled := by
  unfold lengthByte at hl
  simp only at hl
  split at hl
  · cases hl
    rfl
  · cases hl

/-- The remaining length is known after its last byte. -/
theorem sized_count {c : Conn σ} {byte : UInt8} {last : Bool}
    (hl : lengthByte conn byte = .ok (last, c)) (hcount : conn.inPacket.remainingCount ≤ 0) :
    0 < c.sized.inPacket.remainingCount := by
  obtain ⟨-, -, -, hc, -⟩ := lengthByte_ok hl
  simp only [Conn.sized]
  omega

theorem receiveCommand_takes (hopen : ¬ conn.Complete) (buf : Bytes) :
    Takes (receiveChecks h) h.toHost (receiveHalting σ s) conn buf
      (scan (receiveChecks h) h.toHost false conn (buf.map some ++ none :: s))
      (fun c => ¬ c.Complete) (scan (receiveChecks h) h.toHost true)
      (receiveCommand h conn buf) := by
  unfold receiveCommand
  by_cases hcmd : conn.inPacket.command = 0
  · rw [if_neg (not_not.mpr hcmd)]
    cases buf with
    | nil => exact ⟨rfl, rfl, hopen, Nat.zero_le _⟩
    | cons byte buf =>
      have hscan := @scan_command _ (receiveChecks h) h.toHost conn byte
        (buf.map some ++ none :: s) rfl hcmd hopen
      simp only
      rw [List.map_cons, List.cons_append, hscan]
      by_cases hrefused : wsCommandRefused h conn.mosq byte = true
      · have hchecks : (receiveChecks h).command conn.mosq byte = true := hrefused
        rw [if_pos hrefused, if_pos hchecks]
        exact ⟨rfl, rfl⟩
      · have hchecks : ¬ (receiveChecks h).command conn.mosq byte = true := hrefused
        rw [if_neg hrefused, if_neg hchecks]
        exact ⟨rfl, hopen, rfl, rfl, .inl (Nat.lt_succ_self _)⟩
  · rw [if_pos hcmd]
    exact .here (scan_stop hcmd _) hopen

theorem receiveLengthLoop_takes (buf : Bytes) {conn : Conn σ}
    (hcount : conn.inPacket.remainingCount ≤ 0) :
    Takes (receiveChecks h) h.toHost (receiveHalting σ s) conn buf
      (scan (receiveChecks h) h.toHost true conn (buf.map some ++ none :: s))
      (fun c => 0 < c.inPacket.remainingCount) (scanOn (receiveChecks h) h.toHost)
      (receiveLengthLoop conn buf) := by
  induction buf generalizing conn with
  | nil => exact ⟨rfl, rfl, fun hf => absurd hf.1 (not_lt.mpr hcount), Nat.zero_le _⟩
  | cons byte buf ih =>
    have hscan := @scan_length _ (receiveChecks h) h.toHost conn byte
      (buf.map some ++ none :: s) rfl hcount
    rw [List.map_cons, List.cons_append, hscan]
    unfold receiveLengthLoop
    match hl : lengthByte conn byte with
    | .error r => exact ⟨lengthByte_handled hl, rfl⟩
    | .ok (false, c) =>
      obtain ⟨hm, hh, -, hc, -⟩ := lengthByte_ok hl
      exact (ih (by omega)).after hm hh (Nat.lt_succ_self _)
    | .ok (true, c) =>
      obtain ⟨hm, hh, -, -, -⟩ := lengthByte_ok hl
      exact ⟨rfl, sized_count hl hcount, hm, hh, .inl (Nat.lt_succ_self _)⟩

theorem receiveLength_takes (hopen : ¬ conn.Complete) (buf : Bytes) :
    Takes (receiveChecks h) h.toHost (receiveHalting σ s) conn buf
      (scan (receiveChecks h) h.toHost true conn (buf.map some ++ none :: s))
      (fun c => 0 < c.inPacket.remainingCount) (scanOn (receiveChecks h) h.toHost)
      (receiveLength conn buf) := by
  unfold receiveLength
  by_cases hcount : conn.inPacket.remainingCount ≤ 0
  · rw [if_pos hcount]
    exact receiveLengthLoop_takes buf hcount
  · rw [if_neg hcount]
    exact .here (scanOn_open hopen _).symm (by omega)

theorem receivePayload_takes (hcount : 0 < conn.inPacket.remainingCount) (buf : Bytes) :
    Takes (receiveChecks h) h.toHost (receiveHalting σ s) conn buf
      (scanOn (receiveChecks h) h.toHost conn (buf.map some ++ none :: s))
      Conn.Complete (scanDone (receiveChecks h) h.toHost) (receivePayload conn buf) := by
  unfold receivePayload
  simp only
  by_cases hleft : conn.inPacket.toProcess > 0
  · rw [if_pos hleft]
    by_cases hall : buf.length ≥ conn.inPacket.toProcess
    · have hlen : (buf.take conn.inPacket.toProcess).length = conn.inPacket.toProcess := by
        rw [List.length_take]
        omega
      have hdone : (payloadBytes conn (buf.take conn.inPacket.toProcess)).Complete :=
        ⟨hcount, by simp only [payloadBytes, hlen, Nat.sub_self]⟩
      have hscan := @scanOn_payload _ (receiveChecks h) h.toHost
        ((buf.drop conn.inPacket.toProcess).map some ++ none :: s)
        (buf.take conn.inPacket.toProcess) conn rfl hcount hlen.le
      rw [← List.append_assoc, ← List.map_append, List.take_append_drop, scanOn_done hdone] at hscan
      rw [if_pos hall]
      refine ⟨hscan, hdone, rfl, rfl, .inl ?_⟩
      show (buf.drop _).length < buf.length
      rw [List.length_drop]
      omega
    · have hmore : ¬ (payloadBytes conn buf).Complete := fun hf => by
        have := hf.2
        simp only [payloadBytes] at this
        omega
      have hscan := @scanOn_payload _ (receiveChecks h) h.toHost (none :: s) buf conn rfl hcount
        (by omega)
      rw [scanOn_open hmore] at hscan
      rw [if_neg hall]
      exact ⟨rfl, hscan, hmore, Nat.zero_le _⟩
  · have hdone : conn.Complete := ⟨hcount, by omega⟩
    rw [if_neg hleft]
    exact .here (scanOn_done hdone _) hdone

/-- **A turn of the loop** goes through the bytes one by one. -/
theorem receiveBlocks_takes (hopen : ¬ conn.Complete) (buf : Bytes) :
    Takes (receiveChecks h) h.toHost (receiveHalting σ s) conn buf
      (scan (receiveChecks h) h.toHost false conn (buf.map some ++ none :: s))
      Conn.Complete (scanDone (receiveChecks h) h.toHost) (receiveBlocks h conn buf) :=
  (receiveCommand_takes hopen buf).bind fun _ buf hopen _ =>
    (receiveLength_takes hopen buf).bind fun _ buf hcount _ => receivePayload_takes hcount buf

end Receive

/-! ## The callback over its frames -/

section Frames

variable {σ : Type} {h : WsHost σ}

/-- Every packet was handled without an error. -/
structure Clean (c : WsConn σ) : Prop where
  logged : c.returned.length = c.handled.length
  good : ∀ rc ∈ c.returned, rc = Rc.success

/-- The handling of the last of these packets failed, whatever came after it. -/
def FailedAt (handled : List Incoming) (c : WsConn σ) : Prop :=
  ∃ k, c.returned.findIdx? (· ≠ Rc.success) = some k ∧ handled.length = k + 1 ∧
    handled <+: c.handled

/-- The log has only grown. -/
def Extends (c c' : WsConn σ) : Prop :=
  c.handled <+: c'.handled ∧ ∃ rcs, c'.returned = c.returned ++ rcs

theorem Clean.verdict {c : WsConn σ} (hc : Clean c) (rc : Int) :
    receiveVerdict (rc, c) = (if rc = 0 then .pending else .rejected, c.handled) := by
  have hnone : c.returned.findIdx? (· ≠ Rc.success) = none := by
    rw [List.findIdx?_eq_none_iff]
    intro rc hrc
    rw [hc.good rc hrc]
    decide
  unfold receiveVerdict
  rw [hnone]

theorem FailedAt.verdict {handled : List Incoming} {r : Int × WsConn σ}
    (hf : FailedAt handled r.2) : receiveVerdict r = (.failed, handled) := by
  obtain ⟨k, hk, hlen, hpre⟩ := hf
  unfold receiveVerdict
  simp only [hk]
  rw [← hlen, ← List.prefix_iff_eq_take.mp hpre]

theorem FailedAt.extends {handled : List Incoming} {c c' : WsConn σ} (hf : FailedAt handled c)
    (he : Extends c c') : FailedAt handled c' := by
  obtain ⟨k, hk, hlen, hpre⟩ := hf
  obtain ⟨hh, rcs, hr⟩ := he
  refine ⟨k, ?_, hlen, hpre.trans hh⟩
  rw [hr, List.findIdx?_append, hk]
  rfl

theorem Extends.trans {c c' c'' : WsConn σ} (h₁ : Extends c c') (h₂ : Extends c' c'') :
    Extends c c'' := by
  obtain ⟨hh, rcs, hr⟩ := h₁
  obtain ⟨hh', rcs', hr'⟩ := h₂
  exact ⟨hh.trans hh', rcs ++ rcs', by rw [hr', hr, List.append_assoc]⟩

theorem Extends.refl (c : WsConn σ) : Extends c c :=
  ⟨List.prefix_refl _, [], (List.append_nil _).symm⟩

theorem packetDone_handled (conn : Conn σ) :
    ∃ packet, (packetDone h.toHost conn).2.handled = conn.handled ++ [packet] := ⟨_, rfl⟩

/-- The two ways `handle__packet` may go. -/
theorem receiveDone_cases (c : WsConn σ) :
    ((packetDone h.toHost c.toConn).1 = Rc.success ∧ receiveDone h c =
      (false, { (packetDone h.toHost c.toConn).2 with returned := c.returned ++ [Rc.success] })) ∨
    ((packetDone h.toHost c.toConn).1 ≠ Rc.success ∧ ∃ ends c', receiveDone h c = (ends, c') ∧
      c'.handled = (packetDone h.toHost c.toConn).2.handled ∧
      c'.returned = c.returned ++ [(packetDone h.toHost c.toConn).1]) := by
  unfold receiveDone
  simp only
  by_cases hrc : (packetDone h.toHost c.toConn).1 = Rc.success
  · left
    rw [if_neg (fun hf => hf.1 hrc), if_neg (fun hf => hf hrc), hrc]
    exact ⟨rfl, rfl⟩
  · right
    refine ⟨hrc, ?_⟩
    split
    · exact ⟨_, _, rfl, rfl, rfl⟩
    · exact ⟨_, _, rfl, rfl, rfl⟩

theorem receiveDone_extends (c : WsConn σ) : Extends c (receiveDone h c).2 := by
  obtain ⟨packet, hp⟩ := packetDone_handled (h := h) c.toConn
  have hpre : c.handled <+: (packetDone h.toHost c.toConn).2.handled := by
    rw [hp]
    exact List.prefix_append _ _
  rcases receiveDone_cases (h := h) c with ⟨-, hd⟩ | ⟨-, ends, c', hd, hh, hr⟩
  · rw [hd]
    exact ⟨hpre, _, rfl⟩
  · rw [hd]
    exact ⟨by rw [hh]; exact hpre, _, hr⟩

theorem receiveDone_open {c c' : WsConn σ} {ends : Bool} (hd : receiveDone h c = (ends, c')) :
    ¬ c'.Complete := by
  have hidle : c'.inPacket = packetCleanup := by
    unfold receiveDone at hd
    simp only at hd
    split at hd
    · cases hd
      rfl
    · split at hd
      · cases hd
        rfl
      · cases hd
        rfl
  intro hf
  have hcount := hf.1
  rw [hidle] at hcount
  exact absurd hcount (by decide)

theorem Clean.congr {c : WsConn σ} (hc : Clean c) {conn : Conn σ} (hh : conn.handled = c.handled) :
    Clean { conn with returned := c.returned } := ⟨by rw [hc.logged]; exact hh ▸ rfl, hc.good⟩

/-- What the loop does to the log, and that it stops inside a packet. -/
theorem receiveLoop_extends (n : Nat) {c : WsConn σ} (hopen : ¬ c.Complete) (frame : Bytes) :
    Extends c (receiveLoop h n c frame).2 ∧
      ((receiveLoop h n c frame).1 = 0 → ¬ (receiveLoop h n c frame).2.Complete) := by
  induction n generalizing c frame with
  | zero => exact ⟨.refl c, fun _ => hopen⟩
  | succ n ih =>
    cases frame with
    | nil => exact ⟨.refl c, fun _ => hopen⟩
    | cons byte buf =>
      have htakes := receiveBlocks_takes (h := h) (s := []) hopen (byte :: buf)
      unfold receiveLoop
      match hb : receiveBlocks h c.toConn (byte :: buf) with
      | .error (rc, c') =>
        rw [hb] at htakes
        obtain ⟨hh, hstop⟩ := htakes
        refine ⟨⟨hh ▸ List.prefix_rfl, [], (List.append_nil _).symm⟩, fun hrc => ?_⟩
        have hrc : rc = 0 := hrc
        subst hrc
        exact hstop.2.1
      | .ok (c', rest) =>
        rw [hb] at htakes
        have hh : c'.handled = c.handled := htakes.2.2.2.1
        have hsame : Extends c { c' with returned := c.returned } :=
          ⟨hh ▸ List.prefix_rfl, [], (List.append_nil _).symm⟩
        have hstep := hsame.trans (receiveDone_extends (h := h) _)
        simp only
        split
        · rename_i c'' hd
          rw [hd] at hstep
          exact ⟨hstep, fun hrc => absurd hrc (by simp)⟩
        · rename_i c'' hd
          rw [hd] at hstep
          obtain ⟨hext, hopen'⟩ := ih (receiveDone_open hd) rest
          exact ⟨hstep.trans hext, hopen'⟩

theorem callbackReceives_extends {c : WsConn σ} (hopen : ¬ c.Complete) (frames : List Bytes) :
    Extends c (callbackReceives h c frames).2 := by
  induction frames generalizing c with
  | nil => exact .refl c
  | cons frame frames ih =>
    obtain ⟨hframe, hopen'⟩ := receiveLoop_extends (h := h) frame.length hopen frame
    unfold callbackReceives
    simp only
    split
    · rename_i hrc
      exact hframe.trans (ih (hopen' hrc))
    · exact hframe

/-- A packet that the callback takes and handles. -/
theorem receiveLoop_taken {n : Nat} {c : WsConn σ} {byte : UInt8} {buf : Bytes} {c' : Conn σ}
    {rest : Bytes} (hb : receiveBlocks h c.toConn (byte :: buf) = .ok (c', rest))
    (hh : c'.handled = c.handled) (hc : Clean c) :
    ((packetDone h.toHost c').1 = Rc.success ∧ ∃ done : WsConn σ, Clean done ∧
      done.toConn = (packetDone h.toHost c').2 ∧
      receiveLoop h (n + 1) c (byte :: buf) = receiveLoop h n done rest) ∨
    ((packetDone h.toHost c').1 ≠ Rc.success ∧
      FailedAt (packetDone h.toHost c').2.handled (receiveLoop h (n + 1) c (byte :: buf)).2) := by
  obtain ⟨packet, hp⟩ := packetDone_handled (h := h) c'
  have hlen : (packetDone h.toHost c').2.handled.length = c.returned.length + 1 := by
    rw [hp, hh, List.length_append, List.length_singleton, hc.logged]
  have hturn : receiveLoop h (n + 1) c (byte :: buf) =
      match receiveDone h { c' with returned := c.returned } with
      | (true, conn) => (-1, conn)
      | (false, conn) => receiveLoop h n conn rest := by
    rw [receiveLoop, hb]
  rcases receiveDone_cases (h := h) { c' with returned := c.returned } with
    ⟨hrc, hd⟩ | ⟨hrc, ends, c'', hd, hh', hr⟩
  · left
    refine ⟨hrc, { (packetDone h.toHost c').2 with returned := c.returned ++ [Rc.success] },
      ⟨?_, ?_⟩, rfl, by rw [hturn, hd]⟩
    · simp only [List.length_append, List.length_singleton, hlen]
    · intro rc hmem
      rcases List.mem_append.mp hmem with hmem | hmem
      · exact hc.good rc hmem
      · exact List.mem_singleton.mp hmem
  · right
    have hfailed : FailedAt (packetDone h.toHost c').2.handled c'' := by
      refine ⟨c.returned.length, ?_, hlen, hh' ▸ List.prefix_rfl⟩
      have hnone : c.returned.findIdx? (· ≠ Rc.success) = none := by
        rw [List.findIdx?_eq_none_iff]
        intro rc hmem
        rw [hc.good rc hmem]
        decide
      rw [hr, List.findIdx?_append, hnone]
      simp [hrc]
    refine ⟨hrc, ?_⟩
    rw [hturn, hd]
    cases ends with
    | true => exact hfailed
    | false => exact hfailed.extends (receiveLoop_extends n (receiveDone_open hd) rest).1

theorem packetDone_open (conn : Conn σ) : ¬ (packetDone h.toHost conn).2.Complete :=
  fun hf => absurd hf.1 (by simp [packetDone, packetCleanup])

/-- The callback after a frame: inside a packet, at its end, or at a failed packet. -/
def Framed (h : WsHost σ) (c : WsConn σ) (frame : Bytes) (r : Int × WsConn σ) : Prop :=
  (r.1 = 0 ∧ Clean r.2 ∧ ∀ s, scan (receiveChecks h) h.toHost false c.toConn
    (frame.map some ++ none :: s) = scan (receiveChecks h) h.toHost false r.2.toConn s) ∨
  (r.1 ≠ 0 ∧ Clean r.2 ∧ ∀ s, scan (receiveChecks h) h.toHost false c.toConn
    (frame.map some ++ none :: s) = (.rejected, r.2.handled)) ∨
  ∃ handled, FailedAt handled r.2 ∧ ∀ s, scan (receiveChecks h) h.toHost false c.toConn
    (frame.map some ++ none :: s) = (.failed, handled)

theorem receiveLoop_framed (n : Nat) {c : WsConn σ} {frame : Bytes} (hc : Clean c)
    (hopen : ¬ c.Complete) (hn : frame.length ≤ n) :
    Framed h c frame (receiveLoop h n c frame) := by
  induction n generalizing c frame with
  | zero =>
    obtain rfl := List.eq_nil_of_length_eq_zero (Nat.le_zero.mp hn)
    exact .inl ⟨rfl, hc, fun _ => rfl⟩
  | succ n ih =>
    cases frame with
    | nil => exact .inl ⟨rfl, hc, fun _ => rfl⟩
    | cons byte buf =>
      have htakes := fun s => receiveBlocks_takes (h := h) (s := s) hopen (byte :: buf)
      match hb : receiveBlocks h c.toConn (byte :: buf) with
      | .error (rc, c') =>
        have hloop : receiveLoop h (n + 1) c (byte :: buf) =
            (rc, { c' with returned := c.returned }) := by
          rw [receiveLoop, hb]
        simp only [hb] at htakes
        have hh : c'.handled = c.handled := (htakes []).1
        rw [hloop]
        by_cases hrc : rc = 0
        · subst hrc
          exact .inl ⟨rfl, hc.congr hh, fun s => (htakes s).2.1⟩
        · refine .inr (.inl ⟨hrc, hc.congr hh, fun s => ?_⟩)
          have hstop := (htakes s).2
          simp only [receiveHalting, if_neg hrc] at hstop
          rw [hstop, hh]
      | .ok (c', rest) =>
        simp only [hb] at htakes
        obtain ⟨-, hdone, -, hh, hsize⟩ := htakes []
        have hlt : rest.length < (byte :: buf).length := by
          rcases hsize with hlt | ⟨rfl, -⟩
          · exact hlt
          · exact absurd hdone hopen
        have hscan := fun s => (htakes s).1
        rcases receiveLoop_taken (n := n) hb hh hc with ⟨hrc, done, hclean, hconn, heq⟩ | ⟨hrc, hf⟩
        · have hrec := @ih _ rest hclean (hconn ▸ packetDone_open c') (by
            simp only [List.length_cons] at hlt hn
            omega)
          simp only [scanDone, if_pos hrc, ← hconn] at hscan
          rw [heq]
          unfold Framed
          simp only [hscan]
          exact hrec
        · simp only [scanDone, if_neg hrc] at hscan
          exact .inr (.inr ⟨_, hf, hscan⟩)

def frameTokens (frames : List Bytes) : List (Option UInt8) :=
  frames.flatMap fun frame => frame.map some ++ [none]

/-- **The callback** goes through the bytes one by one, whatever the frames. -/
theorem callbackReceives_scan {c : WsConn σ} (hc : Clean c) (hopen : ¬ c.Complete)
    (frames : List Bytes) : receiveVerdict (callbackReceives h c frames) =
      scan (receiveChecks h) h.toHost false c.toConn (frameTokens frames) := by
  induction frames generalizing c with
  | nil => exact hc.verdict 0
  | cons frame frames ih =>
    have htokens : frameTokens (frame :: frames) = frame.map some ++ none :: frameTokens frames := by
      simp [frameTokens]
    have hopen' := (receiveLoop_extends (h := h) frame.length hopen frame).2
    rw [htokens, callbackReceives]
    rcases receiveLoop_framed (h := h) frame.length hc hopen (Nat.le_refl _) with
      ⟨hrc, hclean, hscan⟩ | ⟨hrc, hclean, hscan⟩ | ⟨handled, hf, hscan⟩
    · rw [hscan, ← ih hclean (hopen' hrc)]
      exact congrArg receiveVerdict (if_pos hrc)
    · rw [hscan, ← (hclean.verdict (callbackReceive h c frame).1).trans
        (congrArg (·, _) (if_neg hrc))]
      exact congrArg receiveVerdict (if_neg hrc)
    · rw [hscan]
      by_cases hrc : (callbackReceive h c frame).1 = 0
      · have hlast := hf.extends (callbackReceives_extends (h := h) (hopen' hrc) frames)
        rw [← hlast.verdict]
        exact congrArg receiveVerdict (if_pos hrc)
      · rw [← hf.verdict]
        exact congrArg receiveVerdict (if_neg hrc)

end Frames

/-! ## `packet__read` -/

section Read

variable {σ : Type} (h : WsHost σ)

/-- The checks of `packet__read` once the remaining length is known. -/
def sizeRefused (mosq : σ) (p : InPacket) : Bool :=
  h.withBroker && (lengthRefused h.toHost mosq p ||
    decide (h.maxPacketSize > 0 ∧ p.remainingLength + 1 > h.maxPacketSize))

def readChecks : Checks σ where
  gone mosq := !h.hasSock mosq
  command := commandRefused h.toHost
  length := sizeRefused h

/-- The bytes of a script, and the places with nothing there. -/
def netTokens : List NetEvent → List (Option UInt8)
  | [] => []
  | .again :: net => none :: netTokens net
  | .bytes first more :: net => (first :: more).map some ++ netTokens net

/-- A block of `packet__read` returns success when nothing is there. -/
def readHalting (σ : Type) : Halting σ (Return σ × List NetEvent) (List NetEvent) where
  halt r := (r.1.2, if r.1.1 = Rc.success then some r.2 else none)
  tokens := netTokens
  size := scriptSize

variable {h} {conn : Conn σ} {net net' : List NetEvent}

theorem netTokens_some {count : Nat} {bytes : Bytes} (hr : netRead count net = (some bytes, net')) :
    netTokens net = bytes.map some ++ netTokens net' := by
  unfold netRead at hr
  split at hr
  · cases hr
  · cases hr
  · rename_i first more net
    split at hr
    · cases hr
      rfl
    · rename_i b left hd
      cases hr
      have hsplit := List.take_append_drop count (first :: more)
      show (first :: more).map some ++ _ = _ ++ ((b :: left).map some ++ _)
      rw [← List.append_assoc, ← List.map_append, ← hd, hsplit]

theorem scan_again {k : Checks σ} {count : Nat} (hr : netRead count net = (none, net'))
    (begun : Bool) : scan k h.toHost begun conn (netTokens net) =
      scan k h.toHost false conn (netTokens net') := by
  unfold netRead at hr
  split at hr
  · cases hr
    rfl
  · cases hr
    rfl
  · split at hr
    · cases hr
    · cases hr

/-- A block that finds nothing. -/
theorem Takes.again {stage : Conn σ → Prop} {count : Nat} {begun : Bool}
    {onward : Conn σ → List (Option UInt8) → Outcome × List Incoming}
    (hr : netRead count net = (none, net')) (hopen : ¬ conn.Complete) :
    Takes (readChecks h) h.toHost (readHalting σ) conn net
      (scan (readChecks h) h.toHost begun conn (netTokens net)) stage onward
      (.error ((Rc.success, conn), net')) :=
  ⟨rfl, scan_again hr begun, hopen, (netRead_none hr).2⟩

theorem netTokens_one {bytes : Bytes} (hr : netRead 1 net = (some bytes, net')) :
    netTokens net = some (bytes.headD 0) :: netTokens net' := by
  obtain ⟨-, -, hpos, hle⟩ := netRead_some Nat.one_pos hr
  have htokens := netTokens_some hr
  match bytes, hpos, hle with
  | [b], _, _ => exact htokens

theorem readCommand_takes (hgone : h.hasSock conn.mosq = true) (hopen : ¬ conn.Complete) :
    Takes (readChecks h) h.toHost (readHalting σ) conn net
      (scan (readChecks h) h.toHost false conn (netTokens net)) (fun c => ¬ c.Complete)
      (scan (readChecks h) h.toHost true) (readCommand h.toHost conn net) := by
  have hsock : (readChecks h).gone conn.mosq = false := by simp [readChecks, hgone]
  unfold readCommand
  by_cases hcmd : conn.inPacket.command = 0
  · rw [if_neg (not_not.mpr hcmd)]
    match hr : netRead 1 net with
    | (none, net') => exact .again hr hopen
    | (some bytes, net') =>
      have hscan := @scan_command _ (readChecks h) h.toHost conn (bytes.headD 0)
        (netTokens net') hsock hcmd hopen
      obtain ⟨-, hlt⟩ := netRead_one hr
      rw [netTokens_one hr, hscan]
      unfold commandByte
      simp only
      by_cases hrefused : commandRefused h.toHost conn.mosq (bytes.headD 0) = true
      · have hchecks : (readChecks h).command conn.mosq (bytes.headD 0) = true := hrefused
        rw [if_pos hrefused, if_pos hchecks]
        exact ⟨rfl, rfl⟩
      · have hchecks : ¬ (readChecks h).command conn.mosq (bytes.headD 0) = true := hrefused
        rw [if_neg hrefused, if_neg hchecks]
        exact ⟨rfl, hopen, rfl, rfl, .inl hlt⟩
  · rw [if_pos hcmd]
    exact .here (scan_stop hcmd _) hopen

theorem lengthDone_sized (conn : Conn σ) :
    (sizeRefused h conn.mosq conn.sized.inPacket = true → ∃ rc c,
      lengthDone h.toHost conn = .error (rc, c) ∧ rc ≠ Rc.success ∧ c.handled = conn.handled) ∧
    (sizeRefused h conn.mosq conn.sized.inPacket = false →
      lengthDone h.toHost conn = .ok conn.sized) := by
  have hbroker := h.broker
  have hlength : lengthRefused h.toHost conn.mosq conn.sized.inPacket = lengthRefused h.toHost
      conn.mosq { conn.inPacket with remainingCount := -conn.inPacket.remainingCount } := rfl
  have hsum : conn.sized.inPacket.remainingLength = conn.inPacket.remainingLength := rfl
  unfold sizeRefused lengthDone
  rw [hlength, hsum, hbroker]
  simp only [Bool.true_and, true_and]
  by_cases hl : lengthRefused h.toHost conn.mosq
      { conn.inPacket with remainingCount := -conn.inPacket.remainingCount } = true
  · rw [if_pos hl, hl]
    exact ⟨fun _ => ⟨_, _, rfl, by decide, rfl⟩, fun hf => absurd hf (by simp)⟩
  · rw [if_neg hl]
    rw [Bool.not_eq_true] at hl
    simp only [hl, Bool.false_or, decide_eq_true_eq, decide_eq_false_iff_not]
    refine ⟨fun hs => ?_, fun hs => ?_⟩
    · rw [if_pos hs]
      exact ⟨_, _, rfl, by decide, rfl⟩
    · rw [if_neg hs]
      rfl

/-- The `do … while` over the remaining length. It is given as many turns as it can take. -/
theorem readLengthLoop_takes (left : Nat) {conn : Conn σ} {net : List NetEvent}
    (hgone : h.hasSock conn.mosq = true) (hcount : conn.inPacket.remainingCount ≤ 0)
    (hpos : 0 < left) (hleft : conn.inPacket.remainingCount < (left : Int) - 4) :
    Takes (readChecks h) h.toHost (readHalting σ) conn net
      (scan (readChecks h) h.toHost true conn (netTokens net))
      (fun c => 0 < c.inPacket.remainingCount) (scanOn (readChecks h) h.toHost)
      (readLengthLoop h.toHost left conn net) := by
  induction left generalizing conn net with
  | zero => exact absurd hpos (Nat.lt_irrefl 0)
  | succ left ih =>
    have hsock : (readChecks h).gone conn.mosq = false := by simp [readChecks, hgone]
    unfold readLengthLoop
    rcases hr : netRead 1 net with ⟨_ | bytes, net'⟩
    · exact .again hr fun hf => absurd hf.1 (not_lt.mpr hcount)
    have hscan := @scan_length _ (readChecks h) h.toHost conn (bytes.headD 0)
      (netTokens net') hsock hcount
    obtain ⟨-, hlt⟩ := netRead_one hr
    rw [netTokens_one hr, hscan]
    simp only
    rcases hl : lengthByte conn (bytes.headD 0) with r | ⟨_ | _, c⟩
    · refine ⟨lengthByte_handled hl, ?_⟩
      simp only [readHalting, if_neg (lengthByte_error hl)]
    · obtain ⟨hm, hh, -, hc, hlow⟩ := lengthByte_ok hl
      push_cast at hleft
      exact (ih (hm ▸ hgone) (by omega) (by omega) (by omega)).after hm hh hlt
    · obtain ⟨hm, hh, -, -, -⟩ := lengthByte_ok hl
      obtain ⟨hrefused, htaken⟩ := @lengthDone_sized σ h c
      simp only
      by_cases hs : sizeRefused h c.mosq c.sized.inPacket = true
      · have hchecks : (readChecks h).length c.mosq c.sized.inPacket = true := hs
        obtain ⟨rc, c', hdone, hrc, hh'⟩ := hrefused hs
        rw [if_pos hchecks, hdone]
        refine ⟨hh'.trans hh, ?_⟩
        simp only [readHalting, if_neg hrc]
      · have hchecks : ¬ (readChecks h).length c.mosq c.sized.inPacket = true := hs
        rw [if_neg hchecks, htaken (by simpa using hs)]
        exact ⟨rfl, sized_count hl hcount, hm, hh, .inl hlt⟩

theorem readLength_takes (hgone : h.hasSock conn.mosq = true) (hopen : ¬ conn.Complete) :
    Takes (readChecks h) h.toHost (readHalting σ) conn net
      (scan (readChecks h) h.toHost true conn (netTokens net))
      (fun c => 0 < c.inPacket.remainingCount) (scanOn (readChecks h) h.toHost)
      (readLength h.toHost conn net) := by
  unfold readLength
  by_cases hcount : conn.inPacket.remainingCount ≤ 0
  · rw [if_pos hcount]
    exact readLengthLoop_takes 5 hgone hcount (by omega) (by omega)
  · rw [if_neg hcount]
    exact .here (scanOn_open hopen _).symm (by omega)

theorem readPayload_takes (left : Nat) {conn : Conn σ} {net : List NetEvent}
    (hgone : h.hasSock conn.mosq = true) (hcount : 0 < conn.inPacket.remainingCount)
    (hleft : conn.inPacket.toProcess ≤ left) :
    Takes (readChecks h) h.toHost (readHalting σ) conn net
      (scanOn (readChecks h) h.toHost conn (netTokens net)) Conn.Complete
      (scanDone (readChecks h) h.toHost) (readPayload left conn net) := by
  induction left generalizing conn net with
  | zero =>
    have hdone : conn.Complete := ⟨hcount, by omega⟩
    exact .here (scanOn_done hdone _) hdone
  | succ left ih =>
    have hsock : (readChecks h).gone conn.mosq = false := by simp [readChecks, hgone]
    unfold readPayload
    by_cases hmore : conn.inPacket.toProcess > 0
    · rw [if_pos hmore]
      rcases hr : netRead conn.inPacket.toProcess net with ⟨_ | bytes, net'⟩
      · have hopen : ¬ conn.Complete := fun hf => by
          have := hf.2
          omega
        rw [scanOn_open hopen]
        exact .again hr hopen
      · obtain ⟨-, hlt, hpos, hle⟩ := netRead_some hmore hr
        rw [netTokens_some hr, scanOn_payload bytes hsock hcount hle]
        exact (@ih (payloadBytes conn bytes) _ hgone hcount (by
          simp only [payloadBytes]
          omega)).after rfl rfl hlt
    · have hdone : conn.Complete := ⟨hcount, by omega⟩
      rw [if_neg hmore]
      exact .here (scanOn_done hdone _) hdone

/-- **The blocks of `packet__read`** go through the bytes one by one. -/
theorem readBlocks_takes (hgone : h.hasSock conn.mosq = true) (hopen : ¬ conn.Complete) :
    Takes (readChecks h) h.toHost (readHalting σ) conn net
      (scan (readChecks h) h.toHost false conn (netTokens net)) Conn.Complete
      (scanDone (readChecks h) h.toHost) (readBlocks h.toHost conn net) :=
  (readCommand_takes hgone hopen).bind fun _ _ hopen hm =>
    (readLength_takes (hm ▸ hgone) hopen).bind fun _ _ hcount hm' =>
      readPayload_takes _ (hm' ▸ hm ▸ hgone) hcount (Nat.le_refl _)

theorem netTokens_nil (hnil : delivered net = []) (k : Checks σ) :
    scan k h.toHost false conn (netTokens net) = (.pending, conn.handled) := by
  induction net with
  | nil => rfl
  | cons event net ih =>
    cases event with
    | again => exact ih hnil
    | bytes first more => exact absurd hnil (by simp [delivered])

theorem netTokens_gone {k : Checks σ} (hgone : k.gone conn.mosq = true)
    (hnet : delivered net ≠ []) :
    scan k h.toHost false conn (netTokens net) = (.rejected, conn.handled) := by
  induction net with
  | nil => exact absurd rfl hnet
  | cons event net ih =>
    cases event with
    | again => exact ih hnet
    | bytes first more => exact scan_gone hgone _ _ _

theorem scriptSize_pos (hnet : delivered net ≠ []) : 0 < scriptSize net := by
  cases net with
  | nil => exact absurd rfl hnet
  | cons event net =>
    cases event with
    | again => exact Nat.succ_pos _
    | bytes first more => exact Nat.succ_pos _

theorem packetRead_error (hgone : h.hasSock conn.mosq = true) {r : Return σ}
    (hb : readBlocks h.toHost conn net = .error (r, net')) :
    packetRead h.toHost conn net = (r, net') := by
  unfold packetRead
  rw [if_neg (by rw [hgone]; decide), if_neg (h.accepted conn.mosq), hb]

theorem packetRead_ok (hgone : h.hasSock conn.mosq = true) {c : Conn σ}
    (hb : readBlocks h.toHost conn net = .ok (c, net')) :
    packetRead h.toHost conn net = (packetDone h.toHost c, net') := by
  unfold packetRead
  rw [if_neg (by rw [hgone]; decide), if_neg (h.accepted conn.mosq), hb]

theorem packetRead_gone (hgone : ¬ h.hasSock conn.mosq = true) :
    packetRead h.toHost conn net = ((Rc.noConn, conn), net) := by
  unfold packetRead
  rw [if_pos (by simpa using hgone)]

/-- **`packet__read`, called while bytes are there,** goes through them one by one, whatever
the reads. -/
theorem readCalls_scan (n : Nat) {conn : Conn σ} {net : List NetEvent} (hopen : ¬ conn.Complete)
    (hn : scriptSize net ≤ n) : readVerdict (readCalls h.toHost n conn net) =
      scan (readChecks h) h.toHost false conn (netTokens net) := by
  induction n generalizing conn net with
  | zero =>
    have hnil : delivered net = [] := by
      by_contra hnet
      exact absurd hn (Nat.not_le.mpr (scriptSize_pos hnet))
    rw [netTokens_nil hnil]
    rfl
  | succ n ih =>
    unfold readCalls
    by_cases hnet : delivered net = []
    · rw [if_pos hnet, netTokens_nil hnet]
      rfl
    rw [if_neg hnet]
    by_cases hgone : h.hasSock conn.mosq = true
    · have htakes := @readBlocks_takes _ h conn net hgone hopen
      rcases hb : readBlocks h.toHost conn net with ⟨⟨rc, c⟩, net'⟩ | ⟨c, net'⟩
      · rw [hb] at htakes
        obtain ⟨hh, hstop⟩ := htakes
        have hh : c.handled = conn.handled := hh
        simp only [packetRead_error hgone hb]
        by_cases hrc : rc = Rc.success
        · simp only [readHalting, if_pos hrc] at hstop
          obtain ⟨hscan, hopen', hsize⟩ := hstop
          have hlt : scriptSize net' ≤ n := by
            have : scriptSize net' ≤ scriptSize net - 1 := hsize
            have := scriptSize_pos hnet
            omega
          rw [if_neg (not_not.mpr hrc), hscan]
          exact ih hopen' hlt
        · simp only [readHalting, if_neg hrc] at hstop
          rw [if_pos hrc, if_pos (congrArg List.length hh), hstop, ← hh]
          rfl
      · rw [hb] at htakes
        obtain ⟨hscan, hdone, -, hh, hsize⟩ := htakes
        have hlt : scriptSize net' < scriptSize net := by
          rcases hsize with hlt | ⟨rfl, -⟩
          · exact hlt
          · exact absurd hdone hopen
        simp only [packetRead_ok hgone hb]
        rw [hscan]
        by_cases hrc : (packetDone h.toHost c).1 = Rc.success
        · rw [if_neg (not_not.mpr hrc), scanDone, if_pos hrc]
          exact ih (packetDone_open c) (by omega)
        · obtain ⟨packet, hp⟩ := packetDone_handled (h := h) c
          have hlonger : (packetDone h.toHost c).2.handled.length ≠ conn.handled.length := by
            rw [hp, hh, List.length_append, List.length_singleton]
            omega
          rw [if_pos hrc, if_neg hlonger, scanDone, if_neg hrc]
          rfl
    · have hchecks : (readChecks h).gone conn.mosq = true := by simpa [readChecks] using hgone
      have hrc : Rc.noConn ≠ Rc.success := by decide
      simp only [packetRead_gone hgone, if_pos hrc, if_true]
      rw [netTokens_gone hchecks hnet]
      rfl

end Read

end AdaptiveMqtt.Packet
