import Mathlib

/-!
# Return codes, bytes and the enumerations of the broker

`Rc` is the C `int` that every function of the broker returns. The named codes
are those of `include/mosquitto.h`; `db__message_insert` also returns the bare
numbers `1` and `2`, which is why a code is a number and not a type of its own.
A C string is the list of its bytes before the terminating NUL, so reading
`s[0] == 0` is asking whether the list is empty.
-/

namespace AdaptiveMqtt

/-- A C `int` return code. -/
abbrev Rc := Int

namespace Rc

abbrev noSubscribers : Rc := -3
abbrev subExists : Rc := -2
abbrev success : Rc := 0
abbrev nomem : Rc := 1
abbrev protocol : Rc := 2
abbrev inval : Rc := 3
abbrev noConn : Rc := 4
abbrev connRefused : Rc := 5
abbrev notFound : Rc := 6
abbrev payloadSize : Rc := 9
abbrev aclDenied : Rc := 12
abbrev unknown : Rc := 13
abbrev malformedPacket : Rc := 21
abbrev duplicateProperty : Rc := 22
abbrev qosNotSupported : Rc := 24
abbrev oversizePacket : Rc := 25
abbrev retainNotSupported : Rc := 28
abbrev topicAliasInvalid : Rc := 29

end Rc

/-- A C string, without its terminating NUL. -/
abbrev Bytes := List UInt8

abbrev slash : UInt8 := 47
abbrev plus : UInt8 := 43
abbrev hash : UInt8 := 35
abbrev dollar : UInt8 := 36

def ascii (s : String) : Bytes := s.toList.map fun c => UInt8.ofNat c.toNat

/-- The address of a `struct mosquitto`. -/
abbrev CtxId := Nat

/-- MQTT quality of service. -/
inductive Qos where
  | q0 | q1 | q2
  deriving DecidableEq, Repr

namespace Qos

def toNat : Qos → Nat
  | q0 => 0
  | q1 => 1
  | q2 => 2

/-- The smaller of two levels: `if(qos > max) max else qos`. -/
def min (a b : Qos) : Qos := if b.toNat < a.toNat then b else a

theorem toNat_inj {a b : Qos} (h : a.toNat = b.toNat) : a = b := by
  cases a <;> cases b <;> simp_all [toNat]

theorem min_eq_left {a b : Qos} (h : a.toNat ≤ b.toNat) : min a b = a := by
  unfold min
  rw [if_neg (by omega)]

end Qos

inductive Protocol where
  | invalid | mqtt31 | mqtt311 | mqtts | mqtt5
  deriving DecidableEq, Repr

inductive TransferMode where
  | normalMode | slowMode
  deriving DecidableEq, Repr

/-- `enum mosquitto_msg_direction`. -/
inductive Direction where
  | mdIn | mdOut
  deriving DecidableEq, Repr

inductive MsgState where
  | invalid
  | publishQos0 | publishQos1 | waitForPuback
  | publishQos2 | waitForPubrec
  | resendPubrel | waitForPubrel | resendPubcomp | waitForPubcomp | sendPubrec
  | queued | storage
  deriving DecidableEq, Repr

inductive ClientState where
  | new | connected | disconnecting | active | connectPending | connectSrv | disconnectWs
  | disconnected | expiring | duplicate | disconnectWithWill | disused
  | authenticating | reauthenticating
  deriving DecidableEq, Repr

inductive PropertyValue where
  | byte (value : UInt8)
  | int16 (value : UInt16)
  | int32 (value : UInt32)
  | varint (value : Nat)
  | binary (value : Bytes)
  | string (value : Bytes)
  | stringPair (name value : Bytes)
  deriving DecidableEq, Repr

structure Property where
  identifier : Nat
  value : PropertyValue
  deriving DecidableEq, Repr

/-- The state `switch(qos)` picks for a message that is to be sent. -/
def publishState : Qos → MsgState
  | .q0 => .publishQos0
  | .q1 => .publishQos1
  | .q2 => .publishQos2

end AdaptiveMqtt
