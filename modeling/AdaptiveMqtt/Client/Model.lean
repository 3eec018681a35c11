import AdaptiveMqtt.Packet.Publish
import AdaptiveMqtt.Broker.Handle

/-!
# The client library

What `lib/` does with the messages of the broker: `handle__publish` and `handle__pubrel` as a
client of the library runs them, the list `msgs_in.inflight` of `lib/messages_mosq.c` behind
them, and what a reconnection does to it. `msgs_out` is not looked at, and neither are the
times at which messages come.
-/

namespace AdaptiveMqtt.Client

open Db Packet

/-- An acknowledgement, with its message id. -/
inductive Ack where
  | puback (mid : UInt16)
  | pubrec (mid : UInt16)
  | pubcomp (mid : UInt16)
  deriving DecidableEq, Repr

/-- `struct mosquitto` of a client, with the acknowledgements that are on their way to the
broker: in `out_packet`, or in the network. -/
structure Mosquitto extends Library where
  inflightMaximum : Nat
  queueLen : Int
  out : List Ack
  deriving DecidableEq, Repr

/-! ## Sending -/

section Send

-- What `packet__queue` returns for a packet.
variable (net : Ack → Rc)

def sendCommandWithMid (ack : Ack) (mosq : Mosquitto) : Rc × Mosquitto :=
  if net ack = Rc.success then (Rc.success, { mosq with out := mosq.out ++ [ack] })
  else (net ack, mosq)

def incrementReceiveQuota (mosq : Mosquitto) : Mosquitto :=
  if mosq.inflightQuota < mosq.inflightMaximum then
    { mosq with inflightQuota := mosq.inflightQuota + 1 }
  else mosq

def decrementReceiveQuota (mosq : Mosquitto) : Mosquitto :=
  { mosq with toLibrary := Packet.decrementReceiveQuota mosq.toLibrary }

def sendPuback (mid : UInt16) (mosq : Mosquitto) : Rc × Mosquitto :=
  sendCommandWithMid net (.puback mid) (incrementReceiveQuota mosq)

def sendPubrec (mid : UInt16) (mosq : Mosquitto) : Rc × Mosquitto :=
  sendCommandWithMid net (.pubrec mid) mosq

def sendPubcomp (mid : UInt16) (mosq : Mosquitto) : Rc × Mosquitto :=
  sendCommandWithMid net (.pubcomp mid) (incrementReceiveQuota mosq)

/-! ## Messages -/

/-- `message__queue` for `mosq_md_in`: `message__release_to_inflight` has nothing to do. -/
def messageQueue (message : Message) (mosq : Mosquitto) : Mosquitto :=
  { mosq with msgsIn := mosq.msgsIn ++ [message], queueLen := mosq.queueLen + 1 }

/-- `message__remove` for `mosq_md_in`: the first message with this id. -/
def messageRemove (mid : UInt16) (qos : Nat) (mosq : Mosquitto) :
    Rc × Option Message × Mosquitto :=
  match mosq.msgsIn.find? (·.mid = mid) with
  | none => (Rc.notFound, none, mosq)
  | some cur =>
    if cur.qos ≠ qos then (Rc.protocol, none, mosq)
    else (Rc.success, some cur, { mosq with
      msgsIn := mosq.msgsIn.eraseP (·.mid = mid), queueLen := mosq.queueLen - 1 })

/-- The loop of `message__reconnect_reset` over `msgs_in.inflight`: only QoS 2 is kept. -/
def resetLoop : List Message → Mosquitto → Mosquitto
  | [], mosq => mosq
  | message :: rest, mosq =>
    let mosq := { mosq with queueLen := mosq.queueLen + 1 }
    if message.qos ≠ 2 then resetLoop rest mosq
    else resetLoop rest (decrementReceiveQuota { mosq with msgsIn := mosq.msgsIn ++ [message] })

def messageReconnectReset (mosq : Mosquitto) : Mosquitto :=
  resetLoop mosq.msgsIn { mosq with
    inflightQuota := mosq.inflightMaximum, queueLen := 0, msgsIn := [] }

/-! ## Packets -/

def handlePublish (message : Message) (mosq : Mosquitto) : Rc × Mosquitto :=
  if mosq.state ≠ .active then (Rc.protocol, mosq)
  else if message.topic.length = 0 then (Rc.protocol, mosq)
  else if message.qos > 0 ∧ mosq.protocol = .mqtt5 ∧ mosq.inflightQuota = 0 then (Rc.protocol, mosq)
  else if message.qos > 0 ∧ message.mid = 0 then (Rc.protocol, mosq)
  else
    match message.qos with
    | 0 => (Rc.success, { mosq with onMessage := mosq.onMessage ++ [message] })
    | 1 =>
      let r := sendPuback net message.mid (decrementReceiveQuota mosq)
      (r.1, { r.2 with onMessage := r.2.onMessage ++ [message] })
    | 2 =>
      let r := sendPubrec net message.mid (decrementReceiveQuota mosq)
      (r.1, messageQueue message r.2)
    | _ => (Rc.protocol, mosq)

/-- `handle__pubrel`. When PUBCOMP cannot be sent, the message goes without a callback. -/
def handlePubrel (p : AckPacket) (mosq : Mosquitto) : Rc × Mosquitto :=
  if mosq.state ≠ .active then (Rc.protocol, mosq)
  else
    match Broker.readPubrel mosq.protocol p with
    | .error rc => (rc, mosq)
    | .ok mid =>
      let r := sendPubcomp net mid mosq
      if r.1 ≠ Rc.success then (r.1, (messageRemove mid 2 r.2).2.2)
      else
        match messageRemove mid 2 r.2 with
        | (_, some message, mosq) =>
          (Rc.success, { mosq with onMessage := mosq.onMessage ++ [message] })
        | (rc, none, mosq) => (if rc = Rc.notFound then Rc.success else rc, mosq)

def handleConnack (reasonCode : UInt8) (mosq : Mosquitto) : Rc × Mosquitto :=
  let mosq := messageReconnectReset mosq
  if reasonCode = 0 then
    (Rc.success, if mosq.state ≠ .disconnecting then { mosq with state := .active } else mosq)
  else if reasonCode ≤ 5 then (Rc.connRefused, mosq)
  else (Rc.protocol, mosq)

/-- `mosquitto__reconnect`, when the new socket is open: the packets that were not sent are
gone, the messages stay. -/
def reconnect (mosq : Mosquitto) : Mosquitto :=
  { messageReconnectReset { mosq with out := [] } with sock := true, state := .connected }

end Send

end AdaptiveMqtt.Client
