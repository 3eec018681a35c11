import AdaptiveMqtt.Db.Steps

/-!
# Acknowledgement packets

The broker's part of `lib/handle_pubackcomp.c` and `lib/handle_pubrec.c`. An
`AckPacket` is what the reading functions get out of `in_packet`, each with the code
it fails with, so that the handlers are defined on every packet there can be.

`recordLatency` is what a PUBACK does to the transmit policy: the PUBACK that follows
the sending of a `latency` message is taken for its answer. It is the only place where
a client goes to slow mode. The build has `WITH_A_THRESHOLD`.
-/

namespace AdaptiveMqtt.Db

/-- An acknowledgement packet as it is read. `trailing`: bytes are left at the end. -/
structure AckPacket where
  command : UInt8
  remainingLength : Nat
  mid : Except Rc UInt16
  reasonCode : Except Rc UInt8
  properties : Except Rc (List Property)
  trailing : Bool

inductive AckType where
  | puback | pubcomp
  deriving DecidableEq, Repr

namespace AckType

def command : AckType → UInt8
  | puback => 0x40
  | pubcomp => 0x70

def qos : AckType → Qos
  | puback => .q1
  | pubcomp => .q2

def reasonCodes : AckType → List UInt8
  | puback => [0, 16, 128, 131, 135, 144, 145, 151, 153]
  | pubcomp => [0, 146]

end AckType

/-- `handle__pubackcomp` reads the packet. -/
def readAck (type : AckType) (protocol : Protocol) (p : AckPacket) : Except Rc UInt16 := do
  let mid ← p.mid
  if p.command ≠ type.command then throw Rc.malformedPacket
  if mid = 0 then throw Rc.protocol
  if protocol = .mqtt5 ∧ p.remainingLength > 2 then
    let reasonCode ← p.reasonCode
    if p.remainingLength > 3 then
      let _ ← p.properties
    if reasonCode ∉ type.reasonCodes then throw Rc.protocol
  if p.trailing then throw Rc.malformedPacket
  return mid

/-- The measured latency in microseconds; C's division truncates. -/
def measuredLatency (sendTime : Int × Int) (tp : Reading) : Int :=
  (tp.sec - sendTime.1) * 1000000 + (tp.nsec - sendTime.2).tdiv 1000

/-- A PUBACK that follows a `latency` message, up to `db__message_write_storage_out`:
the threshold in force judges the sample, and then takes it in. -/
def recordLatency (m : Machine) : Machine :=
  let tp := m.db.read.1
  let now := m.db.read.2.read.1
  let ctx := m.ctx
  let lat := measuredLatency ctx.sendTime tp
  let count := ctx.countForLat.tmod 5
  let latPre := ctx.latPre.set count.toNat lat
  let ctx := { ctx with latencyT := (tp.sec - ctx.sendTime.1, tp.nsec - ctx.sendTime.2)
                        latPre, countForLat := count + 1 }
  let ctx :=
    if lat ≥ ctx.thresholdL.toNat then
      let slowModeTime := if ctx.mode = TransferMode.normalMode then now.wall else ctx.slowModeTime
      { ctx with slowModeTime }.setMode .slowMode
    else { ctx.setMode .normalMode with slowModeTime := 0 }
  { db := m.db.read.2.read.2
    ctx := { ctx with thresholdL := UInt32.ofNat ((latPre.sum.tdiv 5) % 2 ^ 32).toNat } }

/-- What `handle__pubackcomp` does for the transmit policy: a PUBACK is a latency sample
while a `latency` message is out, and storage is flushed. -/
def takeSample (type : AckType) (m : Machine) : Rc × Machine :=
  if m.ctx.sendTime.1 > 0 ∧ type.qos = .q1 then
    let r := messageWriteStorageOut (recordLatency m)
    if r.1 ≠ Rc.success then r
    else (Rc.success, { r.2 with ctx := { r.2.ctx with sendTime := (0, r.2.ctx.sendTime.2) } })
  else (Rc.success, m)

/-- `handle__pubackcomp` after reading the packet. -/
def acknowledge (net : Net) (type : AckType) (mid : UInt16) (m : Machine) : Rc × Machine :=
  let r := takeSample type m
  if r.1 ≠ Rc.success then r
  else
    let r := messageDeleteOutgoing net mid .waitForPubcomp type.qos r.2
    if r.1 = Rc.notFound then (Rc.success, r.2) else r

/-- `handle__pubackcomp`. The quota is given back before the packet is read. -/
def handlePubackcomp (net : Net) (type : AckType) (p : AckPacket) (m : Machine) : Rc × Machine :=
  if m.ctx.state ≠ .active then (Rc.protocol, m)
  else if m.ctx.protocol ≠ .mqtt31 ∧ p.command &&& 0x0F ≠ 0 then (Rc.malformedPacket, m)
  else
    let m := m.onMsgs .mdOut (·.incrementQuota)
    match readAck type m.ctx.protocol p with
    | .error rc => (rc, m)
    | .ok mid => acknowledge net type mid m

def readPubrec (protocol : Protocol) (p : AckPacket) : Except Rc (UInt16 × UInt8) := do
  if p.command ≠ 0x50 then throw Rc.malformedPacket
  let mid ← p.mid
  if mid = 0 then throw Rc.protocol
  let mut reasonCode : UInt8 := 0
  if protocol = .mqtt5 ∧ p.remainingLength > 2 then
    reasonCode ← p.reasonCode
    if reasonCode ∉ [0, 16, 128, 131, 135, 144, 145, 151] then throw Rc.protocol
    if p.remainingLength > 3 then
      let _ ← p.properties
  if p.trailing then throw Rc.malformedPacket
  return (mid, reasonCode)

def handlePubrec (net : Net) (p : AckPacket) (m : Machine) : Rc × Machine :=
  if m.ctx.state ≠ .active then (Rc.protocol, m)
  else
    match readPubrec m.ctx.protocol p with
    | .error rc => (rc, m)
    | .ok (mid, reasonCode) =>
      if reasonCode < 0x80 then
        let r := messageUpdateOutgoing mid .waitForPubcomp .q2 m
        if r.1 ≠ Rc.success ∧ r.1 ≠ Rc.notFound then r else sendPubrel net mid r.2
      else messageDeleteOutgoing net mid .waitForPubrec .q2 m

/-! ## As small steps -/

/-- The sample of a PUBACK taken now is below the client's threshold. -/
def InTime (m : Machine) : Prop :=
  measuredLatency m.ctx.sendTime m.db.read.1 < m.ctx.thresholdL.toNat

/-- `handle__pubackcomp` has nothing against the packet. -/
def Context.Accepts (ctx : Context) (type : AckType) (p : AckPacket) : Prop :=
  ctx.state = .active ∧ ¬ (ctx.protocol ≠ .mqtt31 ∧ p.command &&& 0x0F ≠ 0) ∧
    ∃ mid, readAck type ctx.protocol p = .ok mid

/-- The packet, handled now, would not send the client to slow mode. -/
def Unhurried (type : AckType) (p : AckPacket) (m : Machine) : Prop :=
  m.ctx.Accepts type p → m.ctx.sendTime.1 > 0 → type.qos = .q1 → InTime m

section Steps

variable {R : Rules} {m : Machine}

theorem frame_recordLatency (h : R.slow = false → InTime m) : Frame R m (recordLatency m) := by
  unfold recordLatency Context.setMode
  simp only
  split
  · rename_i hlat
    have hw : R.slow = true := by
      by_contra hw
      exact absurd (h (by simpa using hw)) (not_lt.mpr hlat)
    split
    · exact ⟨rfl, rfl, rfl, rfl, rfl, rfl, rfl, rfl, rfl, fun _ => rfl, .inr (.inr hw)⟩
    · exact ⟨rfl, rfl, rfl, rfl, rfl, rfl, rfl, rfl, rfl, fun _ => rfl, .inl rfl⟩
  · split
    · exact ⟨rfl, rfl, rfl, rfl, rfl, rfl, rfl, rfl, rfl, fun _ => rfl, .inr (.inl rfl)⟩
    · exact ⟨rfl, rfl, rfl, rfl, rfl, rfl, rfl, rfl, rfl, fun _ => rfl, .inl rfl⟩

theorem steps_takeSample (ht : R.touch .mdOut) (type : AckType)
    (hslow : R.slow = false → m.ctx.sendTime.1 > 0 → type.qos = .q1 → InTime m) :
    Steps R m (takeSample type m).2 := by
  unfold takeSample
  split
  · rename_i hlat
    have hrec : Frame R m (recordLatency m) := frame_recordLatency fun hw => hslow hw hlat.1 hlat.2
    have hstore := (steps_frame hrec).trans (steps_messageWriteStorageOut ht _)
    simp only
    split
    · exact hstore
    · refine hstore.trans (steps_frame ?_)
      exact ⟨rfl, rfl, rfl, rfl, rfl, rfl, rfl, rfl, rfl, fun _ => rfl, .inl rfl⟩
  · exact .refl

theorem steps_acknowledge (ht : R.touch .mdOut) (h : Ready R m) (type : AckType) (mid : UInt16)
    (hslow : R.slow = false → m.ctx.sendTime.1 > 0 → type.qos = .q1 → InTime m) :
    Steps R m (acknowledge R.net type mid m).2 := by
  have hsample : Steps R m (takeSample type m).2 := steps_takeSample ht type hslow
  have hdel := hsample.trans
    (steps_messageDeleteOutgoing ht (h.steps hsample) mid .waitForPubcomp type.qos)
  unfold acknowledge
  simp only
  split
  · exact hsample
  · split <;> exact hdel

theorem steps_handlePubackcomp (ht : R.touch .mdOut) (h : Ready R m) (type : AckType)
    (p : AckPacket) (hslow : R.slow = false → Unhurried type p m) :
    Steps R m (handlePubackcomp R.net type p m).2 := by
  unfold handlePubackcomp
  split
  · exact .refl
  · rename_i hactive
    split
    · exact .refl
    · rename_i hflags
      have hinc : Steps R m (m.onMsgs .mdOut (·.incrementQuota)) :=
        steps_shuffle ht (Shuffle.incrementQuota _)
      simp only
      split
      · exact hinc
      · rename_i mid hread
        exact hinc.trans (steps_acknowledge ht (h.steps hinc) type mid
          fun hw => hslow hw ⟨not_not.mp hactive, hflags, mid, hread⟩)

theorem steps_handlePubrec (ht : R.touch .mdOut) (h : Ready R m) (p : AckPacket) :
    Steps R m (handlePubrec R.net p m).2 := by
  unfold handlePubrec
  split
  · exact .refl
  · split
    · exact .refl
    · rename_i mid reasonCode _
      simp only
      split
      · have hup : Steps R m (messageUpdateOutgoing mid .waitForPubcomp .q2 m).2 :=
          steps_messageUpdateOutgoing ht m mid .q2 rfl
        split
        · exact hup
        · exact hup.trans (sends_sendCommand _ _).steps
      · exact steps_messageDeleteOutgoing ht h _ _ _

end Steps

end AdaptiveMqtt.Db
