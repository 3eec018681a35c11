import AdaptiveMqtt.Client.Model

/-!
# QoS 2 between a broker and the client library

A client of the library and a broker that follows MQTT, with the packets between them. The broker
begins an exchange for each message, sends its PUBLISH once in a connection until the PUBREC
arrives, and its PUBREL until the PUBCOMP does; a message id is used again when the exchange is
over. Both directions keep their order, and what is on its way is lost with the connection.

`handle__publish` of the library puts every PUBLISH into `msgs_in.inflight`, also one that comes
again for a message it holds, and `handle__pubrel` takes the first with its id out, also when
PUBCOMP cannot be sent.
-/

namespace AdaptiveMqtt.Client

open Db Packet

/-- What is not settled about a message, at the broker. `sent` is about this connection. -/
structure Exchange where
  serial : Nat
  message : Message
  released : Bool
  sent : Bool
  again : Bool
  deriving DecidableEq, Repr

/-- A packet for the client. A QoS 2 PUBLISH and a PUBREL are of the message with this serial
number, which the packet itself does not have. -/
inductive Down where
  | publish (serial : Nat) (message : Message)
  | pubrel (serial : Nat) (mid : UInt16)
  | other (message : Message) (low : message.qos < 2)
  deriving DecidableEq, Repr

/-- The client, the broker, and what has happened: the messages published with QoS 2, and the
serial numbers of those whose PUBREL the client has processed. -/
structure Link where
  client : Mosquitto
  live : Bool
  toClient : List Down
  exchanges : UInt16 → Option Exchange
  published : List Message
  processed : List Nat

inductive Move where
  | publish (message : Message)
  | send (mid : UInt16)
  | release (mid : UInt16)
  | other (message : Message)
  | answer
  | deliver (net : Ack → Rc)
  | disconnect
  | connectionLost
  | reconnect (reasonCode : UInt8)

/-- A message that a broker may publish with QoS 2. -/
def AtQos2 (message : Message) : Prop :=
  message.qos = 2 ∧ message.mid ≠ 0 ∧ message.topic ≠ [] ∧ message.dup = false

instance (message : Message) : Decidable (AtQos2 message) := inferInstanceAs (Decidable (_ ∧ _))

namespace Link

/-- A client that has not connected yet. -/
def start (protocol : Protocol) (inflightMaximum : Nat) : Link where
  client := { sock := false, state := .new, protocol, inflightQuota := inflightMaximum
              onMessage := [], msgsIn := [], inflightMaximum, queueLen := 0, out := [] }
  live := false
  toClient := []
  exchanges _ := none
  published := []
  processed := []

/-- The broker sends a packet, if there is a connection. -/
def down (d : Down) (l : Link) : Link :=
  if l.live then { l with toClient := l.toClient ++ [d] } else l

/-- Write the exchange of a message id. -/
def exchange (mid : UInt16) (e : Option Exchange) (l : Link) : Link :=
  { l with exchanges := Function.update l.exchanges mid e }

/-- The broker reads an acknowledgement. -/
def hear (ack : Ack) (l : Link) : Link :=
  match ack with
  | .puback _ => l
  | .pubrec mid =>
    match l.exchanges mid with
    | none => l
    | some e =>
      if e.released then l
      else (l.exchange mid (some { e with released := true })).down (.pubrel e.serial mid)
  | .pubcomp mid =>
    match l.exchanges mid with
    | none => l
    | some e => if e.released then l.exchange mid none else l

def pubrelPacket (mid : UInt16) : AckPacket := ⟨0x62, 2, .ok mid, .ok 0, .ok [], false⟩

/-- The client handles a packet. An error ends the connection. -/
def take (net : Ack → Rc) (d : Down) (l : Link) : Rc × Link :=
  match d with
  | .publish _ message | .other message _ =>
    let r := handlePublish net message l.client
    (r.1, { l with client := r.2 })
  | .pubrel serial mid =>
    let r := handlePubrel net (pubrelPacket mid) l.client
    (r.1, { l with client := r.2
                   processed := if l.client.state = .active ∧ serial ∉ l.processed then
                     l.processed ++ [serial] else l.processed })

/-- The connection ends, and with it what is on its way to the client. -/
def close (l : Link) : Link := { l with live := false, toClient := [] }

def exec (l : Link) : Move → Link
  | .publish message =>
    if AtQos2 message ∧ l.exchanges message.mid = none then
      { l.exchange message.mid (some ⟨l.published.length, message, false, false, false⟩) with
        published := l.published ++ [message] }
    else l
  | .send mid =>
    match l.exchanges mid with
    | none => l
    | some e =>
      if l.live ∧ e.released = false ∧ e.sent = false then
        (l.exchange mid (some { e with sent := true, again := true })).down
          (.publish e.serial { e.message with dup := e.again })
      else l
  | .release mid =>
    match l.exchanges mid with
    | none => l
    | some e => if e.released then l.down (.pubrel e.serial mid) else l
  | .other message => if low : message.qos < 2 then l.down (.other message low) else l
  | .answer =>
    match l.client.out with
    | [] => l
    | ack :: out => { l with client := { l.client with out } }.hear ack
  | .deliver net =>
    match l.toClient with
    | [] => l
    | d :: rest =>
      let r := { l with toClient := rest }.take net d
      if r.1 = Rc.success then r.2 else r.2.close
  | .disconnect => { l with client := { l.client with state := .disconnecting } }
  | .connectionLost => l.close
  | .reconnect reasonCode =>
    let r := handleConnack reasonCode (reconnect l.client)
    { l with client := r.2, live := r.1 = Rc.success, toClient := []
             exchanges := fun mid => (l.exchanges mid).map ({ · with sent := false }) }

/-- The step does neither of the two: it does not bring a QoS 2 PUBLISH for a message that the
client holds, and no PUBREL for one while PUBCOMP cannot be sent. -/
def Clear (l : Link) : Move → Prop
  | .deliver net =>
    match l.toClient with
    | .publish _ message :: _ => ∀ msg ∈ l.client.msgsIn, msg.mid ≠ message.mid
    | .pubrel _ mid :: _ => (∀ msg ∈ l.client.msgsIn, msg.mid ≠ mid) ∨
      net (.pubcomp mid) = Rc.success
    | _ => True
  | _ => True

def run (l : Link) (moves : List Move) : Link := moves.foldl exec l

def AllClear (l : Link) : List Move → Prop
  | [] => True
  | move :: moves => l.Clear move ∧ AllClear (l.exec move) moves

/-- What a message is about, whether it is sent again or not. -/
def content (message : Message) : Message := { message with dup := false }

/-- The QoS 2 messages that were passed to the callback. -/
def passed (l : Link) : List Message := (l.client.onMessage.filter (·.qos = 2)).map content

end Link

/-! ## What the client does with a packet -/

section Handling

variable {net : Ack → Rc} {mosq : Mosquitto} {message : Message} {mid : UInt16}

/-- `handle__publish` of a QoS 2 message: refused, or in the list, with its PUBREC or without. -/
theorem handlePublish_q2 (net : Ack → Rc) (mosq : Mosquitto) (h2 : message.qos = 2) :
    (handlePublish net message mosq).2 = mosq ∨
    ((handlePublish net message mosq).2.msgsIn = mosq.msgsIn ++ [message] ∧
      (handlePublish net message mosq).2.onMessage = mosq.onMessage ∧
      ((handlePublish net message mosq).2.out = mosq.out ∨
        (handlePublish net message mosq).2.out = mosq.out ++ [.pubrec message.mid])) := by
  unfold handlePublish
  split
  · exact .inl rfl
  · split
    · exact .inl rfl
    · split
      · exact .inl rfl
      · split
        · exact .inl rfl
        · right
          simp only [h2]
          unfold sendPubrec sendCommandWithMid
          split
          · exact ⟨rfl, rfl, .inr rfl⟩
          · exact ⟨rfl, rfl, .inl rfl⟩

/-- A message of QoS 0 or 1 has nothing to do with the exchanges. -/
theorem handlePublish_other (net : Ack → Rc) (mosq : Mosquitto) (h : message.qos < 2) :
    (handlePublish net message mosq).2.msgsIn = mosq.msgsIn ∧
    (handlePublish net message mosq).2.onMessage.filter (·.qos = 2) =
      mosq.onMessage.filter (·.qos = 2) ∧
    ((handlePublish net message mosq).2.out = mosq.out ∨
      (handlePublish net message mosq).2.out = mosq.out ++ [.puback message.mid]) := by
  have hcall : ∀ l : List Message, (l ++ [message]).filter (·.qos = 2) = l.filter (·.qos = 2) := by
    intro l
    rw [List.filter_append, List.filter_cons_of_neg (by simp; omega), List.filter_nil,
      List.append_nil]
  unfold handlePublish
  split
  · exact ⟨rfl, rfl, .inl rfl⟩
  · split
    · exact ⟨rfl, rfl, .inl rfl⟩
    · split
      · exact ⟨rfl, rfl, .inl rfl⟩
      · split
        · exact ⟨rfl, rfl, .inl rfl⟩
        · split
          · exact ⟨rfl, hcall _, .inl rfl⟩
          · simp only
            have hput : ∀ mosq : Mosquitto,
                (sendPuback net message.mid mosq).2.msgsIn = mosq.msgsIn ∧
                (sendPuback net message.mid mosq).2.onMessage = mosq.onMessage ∧
                ((sendPuback net message.mid mosq).2.out = mosq.out ∨
                  (sendPuback net message.mid mosq).2.out = mosq.out ++ [.puback message.mid]) := by
              intro mosq
              unfold sendPuback sendCommandWithMid incrementReceiveQuota
              split
              · split
                · exact ⟨rfl, rfl, .inr rfl⟩
                · exact ⟨rfl, rfl, .inr rfl⟩
              · split
                · exact ⟨rfl, rfl, .inl rfl⟩
                · exact ⟨rfl, rfl, .inl rfl⟩
            obtain ⟨hin, hon, hout⟩ := hput (decrementReceiveQuota mosq)
            refine ⟨hin, ?_, hout⟩
            rw [hcall, hon]
            rfl
          · omega
          · exact ⟨rfl, rfl, .inl rfl⟩

theorem sendPubcomp_spec (net : Ack → Rc) (mid : UInt16) (mosq : Mosquitto) :
    (sendPubcomp net mid mosq).2.msgsIn = mosq.msgsIn ∧
    (sendPubcomp net mid mosq).2.onMessage = mosq.onMessage ∧
    ((sendPubcomp net mid mosq).1 = Rc.success ∧
        (sendPubcomp net mid mosq).2.out = mosq.out ++ [.pubcomp mid] ∨
      (sendPubcomp net mid mosq).1 ≠ Rc.success ∧ net (.pubcomp mid) ≠ Rc.success ∧
        (sendPubcomp net mid mosq).2.out = mosq.out) := by
  have hquota : (incrementReceiveQuota mosq).msgsIn = mosq.msgsIn ∧
      (incrementReceiveQuota mosq).onMessage = mosq.onMessage ∧
      (incrementReceiveQuota mosq).out = mosq.out := by
    unfold incrementReceiveQuota
    split <;> exact ⟨rfl, rfl, rfl⟩
  obtain ⟨hin, hon, hout⟩ := hquota
  unfold sendPubcomp sendCommandWithMid
  split
  · exact ⟨hin, hon, .inl ⟨rfl, by rw [hout]⟩⟩
  · rename_i hnet
    exact ⟨hin, hon, .inr ⟨hnet, hnet, hout⟩⟩

theorem readPubrel_pubrelPacket (protocol : Protocol) (h0 : mid ≠ 0) :
    Broker.readPubrel protocol (Link.pubrelPacket mid) = .ok mid := by
  unfold Broker.readPubrel Link.pubrelPacket
  simp [h0, bind, Except.bind, pure, Except.pure]

theorem readPubrel_mid {protocol : Protocol} {mid' : UInt16}
    (h : Broker.readPubrel protocol (Link.pubrelPacket mid) = .ok mid') : mid = mid' := by
  by_cases h0 : mid = 0
  · subst h0
    unfold Broker.readPubrel Link.pubrelPacket at h
    simp [bind, Except.bind, throw, throwThe, MonadExceptOf.throw] at h
  · rw [readPubrel_pubrelPacket _ h0] at h
    exact Except.ok.inj h

theorem handlePubrel_none (net : Ack → Rc)
    (hnone : mosq.msgsIn.find? (·.mid = mid) = none) :
    (handlePubrel net (Link.pubrelPacket mid) mosq).2.msgsIn = mosq.msgsIn ∧
    (handlePubrel net (Link.pubrelPacket mid) mosq).2.onMessage = mosq.onMessage ∧
    ((handlePubrel net (Link.pubrelPacket mid) mosq).2.out = mosq.out ∨
      (handlePubrel net (Link.pubrelPacket mid) mosq).2.out = mosq.out ++ [.pubcomp mid]) := by
  obtain ⟨hin, hon, hout⟩ := sendPubcomp_spec net mid mosq
  have hremove : messageRemove mid 2 (sendPubcomp net mid mosq).2 =
      (Rc.notFound, none, (sendPubcomp net mid mosq).2) := by
    unfold messageRemove
    rw [hin, hnone]
  have hout : (sendPubcomp net mid mosq).2.out = mosq.out ∨
      (sendPubcomp net mid mosq).2.out = mosq.out ++ [.pubcomp mid] := by
    rcases hout with ⟨-, hout⟩ | ⟨-, -, hout⟩
    · exact .inr hout
    · exact .inl hout
  unfold handlePubrel
  split
  · exact ⟨rfl, rfl, .inl rfl⟩
  · split
    · exact ⟨rfl, rfl, .inl rfl⟩
    · rename_i mid' hread
      obtain rfl : mid = mid' := readPubrel_mid hread
      simp only
      rw [hremove]
      split
      · exact ⟨hin, hon, hout⟩
      · exact ⟨hin, hon, hout⟩

/-- `handle__pubrel` when the client holds the message and PUBCOMP can be sent. -/
theorem handlePubrel_some {net : Ack → Rc} (h0 : mid ≠ 0) (hactive : mosq.state = .active)
    (hnet : net (.pubcomp mid) = Rc.success) {msg : Message}
    (hsome : mosq.msgsIn.find? (·.mid = mid) = some msg) (h2 : msg.qos = 2) :
    (handlePubrel net (Link.pubrelPacket mid) mosq).2.msgsIn = mosq.msgsIn.eraseP (·.mid = mid) ∧
    (handlePubrel net (Link.pubrelPacket mid) mosq).2.onMessage = mosq.onMessage ++ [msg] ∧
    (handlePubrel net (Link.pubrelPacket mid) mosq).2.out = mosq.out ++ [.pubcomp mid] := by
  obtain ⟨hin, hon, hout⟩ := sendPubcomp_spec net mid mosq
  obtain ⟨hrc, hout⟩ := hout.resolve_right fun h => h.2.1 hnet
  have hremove : messageRemove mid 2 (sendPubcomp net mid mosq).2 =
      (Rc.success, some msg, { (sendPubcomp net mid mosq).2 with
        msgsIn := mosq.msgsIn.eraseP (·.mid = mid)
        queueLen := (sendPubcomp net mid mosq).2.queueLen - 1 }) := by
    unfold messageRemove
    rw [hin, hsome]
    simp only
    rw [if_neg (not_not.mpr h2)]
  unfold handlePubrel
  rw [if_neg (not_not.mpr hactive), readPubrel_pubrelPacket _ h0]
  simp only
  rw [if_neg (not_not.mpr hrc), hremove]
  exact ⟨rfl, by simp only [hon], hout⟩

theorem resetLoop_spec {l : List Message} (h : ∀ msg ∈ l, msg.qos = 2) (mosq : Mosquitto) :
    (resetLoop l mosq).msgsIn = mosq.msgsIn ++ l ∧ (resetLoop l mosq).onMessage = mosq.onMessage ∧
      (resetLoop l mosq).out = mosq.out := by
  induction l generalizing mosq with
  | nil => exact ⟨(List.append_nil _).symm, rfl, rfl⟩
  | cons message rest ih =>
    rw [List.forall_mem_cons] at h
    unfold resetLoop
    simp only
    rw [if_neg (not_not.mpr h.1)]
    obtain ⟨hin, hon, hout⟩ := ih h.2 (decrementReceiveQuota { mosq with
      queueLen := mosq.queueLen + 1, msgsIn := mosq.msgsIn ++ [message] })
    refine ⟨hin.trans ?_, hon, hout⟩
    exact List.append_assoc mosq.msgsIn [message] rest

/-- QoS 2 messages stay over a reconnection; what was to be sent does not. -/
theorem reconnected_spec (h : ∀ msg ∈ mosq.msgsIn, msg.qos = 2) (reasonCode : UInt8) :
    (handleConnack reasonCode (reconnect mosq)).2.msgsIn = mosq.msgsIn ∧
    (handleConnack reasonCode (reconnect mosq)).2.onMessage = mosq.onMessage ∧
    (handleConnack reasonCode (reconnect mosq)).2.out = [] := by
  have hreset : ∀ mosq : Mosquitto, (∀ msg ∈ mosq.msgsIn, msg.qos = 2) →
      (messageReconnectReset mosq).msgsIn = mosq.msgsIn ∧
      (messageReconnectReset mosq).onMessage = mosq.onMessage ∧
      (messageReconnectReset mosq).out = mosq.out := fun mosq h => resetLoop_spec h _
  obtain ⟨hin, hon, hout⟩ := hreset { mosq with out := [] } h
  have hin' : (reconnect mosq).msgsIn = mosq.msgsIn := hin
  obtain ⟨hin₂, hon₂, hout₂⟩ := hreset (reconnect mosq) (by rw [hin']; exact h)
  have hreconnected : (messageReconnectReset (reconnect mosq)).msgsIn = mosq.msgsIn ∧
      (messageReconnectReset (reconnect mosq)).onMessage = mosq.onMessage ∧
      (messageReconnectReset (reconnect mosq)).out = [] :=
    ⟨hin₂.trans hin', hon₂.trans hon, hout₂.trans hout⟩
  unfold handleConnack
  simp only
  split
  · split
    · exact hreconnected
    · exact hreconnected
  · split
    · exact hreconnected
    · exact hreconnected

end Handling

/-! ## Phases of an exchange -/

def Down.about (mid : UInt16) : Down → Bool
  | .publish _ message => message.mid = mid
  | .pubrel _ mid' => mid' = mid
  | .other _ _ => false

def Ack.about (mid : UInt16) : Ack → Bool
  | .puback _ => false
  | .pubrec mid' | .pubcomp mid' => mid' = mid

/-- A PUBREL of an exchange the client is done with. -/
def Stale (processed : List Nat) (mid : UInt16) (d : Down) : Prop :=
  ∃ serial ∈ processed, d = .pubrel serial mid

/-- Nothing, or the PUBLISH of an exchange. -/
def Offer (e : Exchange) (ds : List Down) : Prop :=
  ds = [] ∨ e.sent = true ∧ ∃ dup, ds = [.publish e.serial { e.message with dup }]

/-- How far the exchange of a message id is: what the broker remembers, what the client holds, and
the packets of this id in both directions. -/
inductive Phase (mid : UInt16) (processed : List Nat) :
    Option Exchange → List Message → List Down → List Ack → Prop where
  | idle {ds : List Down} {as : List Ack} (hd : ∀ d ∈ ds, Stale processed mid d)
    (ha : ∀ a ∈ as, a = .pubcomp mid) : Phase mid processed none [] ds as
  | offered {e : Exchange} {stale ds : List Down} {as : List Ack} (hr : e.released = false)
    (hn : e.serial ∉ processed) (hs : ∀ d ∈ stale, Stale processed mid d) (hd : Offer e ds)
    (ha : ∀ a ∈ as, a = .pubcomp mid) : Phase mid processed (some e) [] (stale ++ ds) as
  | taken {e : Exchange} {msg : Message} {ds : List Down} {as : List Ack} (hr : e.released = false)
    (hn : e.serial ∉ processed) (hm : Link.content msg = e.message) (hd : Offer e ds)
    (ha : (∀ a ∈ as, a = .pubcomp mid) ∨ e.sent = true ∧ ds = [] ∧
      ∃ as', (∀ a ∈ as', a = .pubcomp mid) ∧ as = as' ++ [.pubrec mid]) :
    Phase mid processed (some e) [msg] ds as
  | released {e : Exchange} {msg : Message} {ds : List Down} (hr : e.released = true)
    (hn : e.serial ∉ processed) (hm : Link.content msg = e.message)
    (hd : ∀ d ∈ ds, d = .pubrel e.serial mid) : Phase mid processed (some e) [msg] ds []
  | done {e : Exchange} {ds : List Down} {as : List Ack} (hr : e.released = true)
    (hp : e.serial ∈ processed) (hd : ∀ d ∈ ds, d = .pubrel e.serial mid)
    (ha : ∀ a ∈ as, a = .pubcomp mid) : Phase mid processed (some e) [] ds as

section Phase

variable {mid : UInt16} {processed : List Nat} {o : Option Exchange} {e : Exchange}
  {held : List Message} {ds : List Down} {as : List Ack}

/-- The connection ends. -/
theorem Phase.close (h : Phase mid processed o held ds as) : Phase mid processed o held [] as := by
  cases h with
  | idle hd ha => exact .idle nofun ha
  | offered hr hn hs hd ha =>
    exact @Phase.offered mid processed _ [] [] as hr hn nofun (.inl rfl) ha
  | taken hr hn hm hd ha =>
    exact .taken hr hn hm (.inl rfl) (ha.imp_right fun h => ⟨h.1, rfl, h.2.2⟩)
  | released hr hn hm hd => exact .released hr hn hm nofun
  | done hr hp hd ha => exact .done hr hp nofun ha

/-- A new connection. -/
theorem Phase.reopen (h : Phase mid processed o held ds as) :
    Phase mid processed (o.map ({ · with sent := false })) held [] [] := by
  cases h with
  | idle hd ha => exact .idle nofun nofun
  | offered hr hn hs hd ha =>
    exact @Phase.offered mid processed _ [] [] [] hr hn nofun (.inl rfl) nofun
  | taken hr hn hm hd ha => exact .taken hr hn hm (.inl rfl) (.inl nofun)
  | released hr hn hm hd => exact .released hr hn hm nofun
  | done hr hp hd ha => exact .done hr hp nofun nofun

/-- The client processes the PUBREL of another exchange. -/
theorem Phase.mono {serial : Nat} (h : Phase mid processed o held ds as)
    (hne : ∀ e, o = some e → e.serial ≠ serial) :
    Phase mid (processed ++ [serial]) o held ds as := by
  have hstale : ∀ d, Stale processed mid d → Stale (processed ++ [serial]) mid d :=
    fun d ⟨s, hs, hd⟩ => ⟨s, List.mem_append_left _ hs, hd⟩
  have hnot : ∀ e, o = some e → e.serial ∉ processed → e.serial ∉ processed ++ [serial] := by
    intro e he hn hmem
    rcases List.mem_append.mp hmem with h | h
    · exact hn h
    · exact hne e he (List.mem_singleton.mp h)
  cases h with
  | idle hd ha => exact .idle (fun d h => hstale d (hd d h)) ha
  | offered hr hn hs hd ha => exact .offered hr (hnot _ rfl hn) (fun d h => hstale d (hs d h)) hd ha
  | taken hr hn hm hd ha => exact .taken hr (hnot _ rfl hn) hm hd ha
  | released hr hn hm hd => exact .released hr (hnot _ rfl hn) hm hd
  | done hr hp hd ha => exact .done hr (List.mem_append_left _ hp) hd ha

theorem Phase.send (h : Phase mid processed (some e) held ds as) (hr : e.released = false)
    (hsent : e.sent = false) (b : Bool) :
    Phase mid processed (some { e with sent := true, again := true }) held
      (if b then ds ++ [.publish e.serial { e.message with dup := e.again }] else ds) as := by
  have hoffer : ∀ {ds}, Offer e ds → ds = [] := fun h => h.resolve_right fun h' => by
    rw [hsent] at h'
    exact absurd h'.1 (by decide)
  have hnew : Offer { e with sent := true, again := true }
      [.publish e.serial { e.message with dup := e.again }] := .inr ⟨rfl, e.again, rfl⟩
  cases h with
  | @offered _ stale ds₀ _ _ hn hs hd ha =>
    obtain rfl := hoffer hd
    rw [List.append_nil]
    cases b with
    | true =>
      exact @Phase.offered mid processed { e with sent := true, again := true } _ _ _ hr hn hs hnew
        ha
    | false =>
      have := @Phase.offered mid processed { e with sent := true, again := true } stale [] as hr
        hn hs (.inl rfl) ha
      rwa [List.append_nil] at this
  | taken _ hn hm hd ha =>
    obtain rfl := hoffer hd
    have ha := ha.resolve_right fun h' => by
      rw [hsent] at h'
      exact absurd h'.1 (by decide)
    cases b with
    | true =>
      exact @Phase.taken mid processed { e with sent := true, again := true } _ _ _ hr hn hm hnew
        (.inl ha)
    | false =>
      exact @Phase.taken mid processed { e with sent := true, again := true } _ _ _ hr hn hm
        (.inl rfl) (.inl ha)
  | released hr' hn hm hd => exact absurd (hr'.symm.trans hr) (by decide)
  | done hr' hp hd ha => exact absurd (hr'.symm.trans hr) (by decide)

/-- The broker sends the PUBREL again. -/
theorem Phase.release (h : Phase mid processed (some e) held ds as) (hr : e.released = true)
    (b : Bool) :
    Phase mid processed (some e) held (if b then ds ++ [.pubrel e.serial mid] else ds) as := by
  cases b with
  | false => exact h
  | true =>
    have happend : ∀ {ds : List Down}, (∀ d ∈ ds, d = .pubrel e.serial mid) →
        ∀ d ∈ ds ++ [.pubrel e.serial mid], d = .pubrel e.serial mid := by
      intro ds hd d hmem
      rcases List.mem_append.mp hmem with h | h
      · exact hd d h
      · exact List.mem_singleton.mp h
    cases h with
    | offered hr' hn hs hd ha => exact absurd (hr'.symm.trans hr) (by decide)
    | taken hr' hn hm hd ha => exact absurd (hr'.symm.trans hr) (by decide)
    | released _ hn hm hd => exact .released hr hn hm (happend hd)
    | done _ hp hd ha => exact .done hr hp (happend hd) ha

/-- The broker reads a PUBREC: the exchange is one the client holds the message of. -/
theorem Phase.pubrec (h : Phase mid processed o held ds (.pubrec mid :: as)) :
    ∃ e, o = some e ∧ e.released = false ∧ ∀ b : Bool,
      Phase mid processed (some { e with released := true }) held
        (if b then ds ++ [.pubrel e.serial mid] else ds) as := by
  have hnot : ¬ ∀ a ∈ Ack.pubrec mid :: as, a = .pubcomp mid := fun h =>
    nomatch h _ List.mem_cons_self
  cases h with
  | idle hd ha => exact absurd ha hnot
  | offered hr hn hs hd ha => exact absurd ha hnot
  | @taken e msg _ _ hr hn hm hd ha =>
    obtain ⟨hsent, rfl, as', has', heq⟩ := ha.resolve_left hnot
    obtain rfl : as = [] := by
      cases as' with
      | nil => exact (List.cons.inj heq).2
      | cons a as' =>
        have := has' a List.mem_cons_self
        rw [← (List.cons.inj heq).1] at this
        cases this
    refine ⟨e, rfl, hr, fun b => ?_⟩
    have hrel : Phase mid processed (some { e with released := true }) [msg] [] [] :=
      .released rfl hn hm nofun
    exact hrel.release rfl b
  | done hr hp hd ha => exact absurd ha hnot

theorem Phase.pubcomp (h : Phase mid processed o held ds (.pubcomp mid :: as)) :
    Phase mid processed (o.filter fun e => !e.released) held ds as := by
  cases h with
  | idle hd ha => exact .idle hd fun a h => ha a (List.mem_cons_of_mem _ h)
  | offered hr hn hs hd ha =>
    rw [Option.filter_some, if_pos (by simp [hr])]
    exact .offered hr hn hs hd fun a h => ha a (List.mem_cons_of_mem _ h)
  | taken hr hn hm hd ha =>
    rw [Option.filter_some, if_pos (by simp [hr])]
    refine .taken hr hn hm hd ?_
    rcases ha with ha | ⟨hsent, hds, as', has', heq⟩
    · exact .inl fun a h => ha a (List.mem_cons_of_mem _ h)
    · cases as' with
      | nil => cases (List.cons.inj heq).1
      | cons a as' =>
        exact .inr ⟨hsent, hds, as', fun a h => has' a (List.mem_cons_of_mem _ h),
          (List.cons.inj heq).2⟩
  | done hr hp hd ha =>
    rw [Option.filter_some, if_neg (by simp [hr])]
    exact .idle (fun d h => ⟨_, hp, hd d h⟩) fun a h => ha a (List.mem_cons_of_mem _ h)

/-- The client takes a PUBLISH and holds nothing with its id. -/
theorem Phase.publish {serial : Nat} {message : Message}
    (h : Phase mid processed o [] (.publish serial message :: ds) as)
    (hknown : ∀ e, o = some e → AtQos2 e.message) :
    message.qos = 2 ∧ Phase mid processed o [] ds as ∧
      ∀ as', as' = as ∨ as' = as ++ [.pubrec mid] → Phase mid processed o [message] ds as' := by
  have hnot : ∀ {serial'}, Down.publish serial message ≠ .pubrel serial' mid := nofun
  generalize hds : Down.publish serial message :: ds = ds₀ at h
  cases h with
  | idle hd ha =>
    obtain ⟨s, -, hs⟩ := hd _ (hds ▸ List.mem_cons_self)
    exact absurd hs hnot
  | @offered e stale offer _ hr hn hs hd ha =>
    cases stale with
    | cons d stale =>
      obtain ⟨s, -, heq⟩ := hs d List.mem_cons_self
      rw [List.cons_append, heq] at hds
      exact absurd (List.cons.inj hds).1 hnot
    | nil =>
      rw [List.nil_append] at hds
      rcases hd with rfl | ⟨hsent, dup, rfl⟩
      · cases hds
      · obtain ⟨hpublish, rfl⟩ := List.cons.inj hds
        obtain ⟨-, rfl⟩ := Down.publish.inj hpublish
        obtain ⟨hqos, -, -, hdup⟩ := hknown e rfl
        have hcontent : Link.content { e.message with dup } = e.message := by
          unfold Link.content
          rw [← hdup]
        refine ⟨hqos, @Phase.offered mid processed e [] [] as hr hn nofun (.inl rfl) ha, ?_⟩
        rintro as' (rfl | rfl)
        · exact .taken hr hn hcontent (.inl rfl) (.inl ha)
        · exact .taken hr hn hcontent (.inl rfl) (.inr ⟨hsent, rfl, as, ha, rfl⟩)
  | done hr hp hd ha => exact absurd (hd _ (hds ▸ List.mem_cons_self)) hnot

/-- The client takes a PUBREL and holds nothing with its id. -/
theorem Phase.pubrel_none {serial : Nat}
    (h : Phase mid processed o [] (.pubrel serial mid :: ds) as) :
    serial ∈ processed ∧ ∀ as', as' = as ∨ as' = as ++ [.pubcomp mid] →
      Phase mid processed o [] ds as' := by
  have hsnoc : ∀ {as as' : List Ack}, (∀ a ∈ as, a = .pubcomp mid) →
      as' = as ∨ as' = as ++ [.pubcomp mid] → ∀ a ∈ as', a = .pubcomp mid := by
    rintro as as' ha (rfl | rfl) a hmem
    · exact ha a hmem
    · rcases List.mem_append.mp hmem with h | h
      · exact ha a h
      · exact List.mem_singleton.mp h
  generalize hds : Down.pubrel serial mid :: ds = ds₀ at h
  cases h with
  | idle hd ha =>
    subst hds
    obtain ⟨s, hs, heq⟩ := hd _ List.mem_cons_self
    obtain ⟨rfl, -⟩ := Down.pubrel.inj heq
    exact ⟨hs, fun as' h => .idle (fun d hmem => hd d (List.mem_cons_of_mem _ hmem)) (hsnoc ha h)⟩
  | @offered e stale offer _ hr hn hs hd ha =>
    cases stale with
    | nil =>
      rw [List.nil_append] at hds
      rcases hd with rfl | ⟨-, dup, rfl⟩
      · cases hds
      · cases (List.cons.inj hds).1
    | cons d stale =>
      obtain ⟨hd', rfl⟩ := List.cons.inj hds
      obtain ⟨s, hmem, heq⟩ := hs d List.mem_cons_self
      obtain ⟨rfl, -⟩ := Down.pubrel.inj (hd'.trans heq)
      exact ⟨hmem, fun as' h => .offered hr hn (fun d hmem => hs d (List.mem_cons_of_mem _ hmem)) hd
        (hsnoc ha h)⟩
  | done hr hp hd ha =>
    subst hds
    obtain ⟨rfl, -⟩ := Down.pubrel.inj (hd _ List.mem_cons_self)
    exact ⟨hp, fun as' h => .done hr hp (fun d hmem => hd d (List.mem_cons_of_mem _ hmem))
      (hsnoc ha h)⟩

/-- The client takes a PUBREL for the message it holds. -/
theorem Phase.pubrel_some {serial : Nat} {msg : Message}
    (h : Phase mid processed o (msg :: held) (.pubrel serial mid :: ds) as) :
    ∃ e, o = some e ∧ e.serial = serial ∧ serial ∉ processed ∧ held = [] ∧
      Link.content msg = e.message ∧ as = [] ∧ Phase mid processed o [msg] ds [] ∧
      Phase mid (processed ++ [serial]) o [] ds [.pubcomp mid] := by
  cases h with
  | taken hr hn hm hd ha =>
    rcases hd with hd | ⟨-, dup, hd⟩
    · cases hd
    · cases (List.cons.inj hd).1
  | @released e _ _ hr hn hm hd =>
    obtain ⟨rfl, -⟩ := Down.pubrel.inj (hd _ List.mem_cons_self)
    have hrest : ∀ d ∈ ds, d = .pubrel e.serial mid := fun d h => hd d (List.mem_cons_of_mem _ h)
    refine ⟨e, rfl, rfl, hn, rfl, hm, rfl, .released hr hn hm hrest, ?_⟩
    exact .done hr (List.mem_append_right _ (List.mem_singleton.mpr rfl)) hrest
      fun a h => List.mem_singleton.mp h

end Phase

/-! ## The invariant -/

namespace Link

/-- What the client holds with a message id, and the packets of this id on their way. -/
def held (l : Link) (mid : UInt16) : List Message := l.client.msgsIn.filter (·.mid = mid)

def downs (l : Link) (mid : UInt16) : List Down := l.toClient.filter (·.about mid)

def acks (l : Link) (mid : UInt16) : List Ack := l.client.out.filter (·.about mid)

structure Inv (l : Link) : Prop where
  phase : ∀ mid, Phase mid l.processed (l.exchanges mid) (l.held mid) (l.downs mid) (l.acks mid)
  known : ∀ {mid e}, l.exchanges mid = some e → AtQos2 e.message ∧ e.message.mid = mid ∧
    l.published[e.serial]? = some e.message
  qos2 : ∀ msg ∈ l.client.msgsIn, msg.qos = 2
  bound : ∀ serial ∈ l.processed, serial < l.published.length
  nodup : l.processed.Nodup
  passed : l.passed.map some = l.processed.map (l.published[·]?)

section Inv

variable {l : Link} {mid : UInt16} {e : Exchange}

/-- Exchanges of other message ids are of other messages. -/
theorem Inv.serial_ne (h : l.Inv) {mid' : UInt16} {e' : Exchange} (he : l.exchanges mid = some e)
    (he' : l.exchanges mid' = some e') (hne : mid' ≠ mid) : e'.serial ≠ e.serial := by
  intro heq
  obtain ⟨-, hmid, hpub⟩ := h.known he
  obtain ⟨-, hmid', hpub'⟩ := h.known he'
  rw [heq, hpub] at hpub'
  rw [← Option.some.inj hpub', hmid] at hmid'
  exact hne hmid'.symm

theorem inv_start (protocol : Protocol) (inflightMaximum : Nat) :
    (start protocol inflightMaximum).Inv where
  phase _ := .idle nofun nofun
  known h := nomatch h
  qos2 := nofun
  bound := nofun
  nodup := List.nodup_nil
  passed := rfl

theorem Inv.close (h : l.Inv) : l.close.Inv :=
  { h with phase := fun mid => (h.phase mid).close }

/-- The broker sends a packet of a message id. -/
theorem Inv.down (h : l.Inv) {d : Down} (hd : ∀ mid', d.about mid' = decide (mid' = mid))
    (hphase : Phase mid l.processed (l.exchanges mid) (l.held mid) (l.downs mid ++ [d])
      (l.acks mid)) : (l.down d).Inv := by
  unfold Link.down
  split
  · refine { h with phase := fun mid' => ?_ }
    show Phase mid' l.processed (l.exchanges mid') (l.held mid')
      ((l.toClient ++ [d]).filter (·.about mid')) (l.acks mid')
    rw [List.filter_append]
    by_cases hm : mid' = mid
    · subst hm
      rwa [List.filter_cons_of_pos (by rw [hd]; exact decide_eq_true rfl)]
    · rw [List.filter_cons_of_neg (by rw [hd]; simpa using hm), List.filter_nil, List.append_nil]
      exact h.phase mid'
  · exact h

theorem Inv.exchange (h : l.Inv) {o : Option Exchange}
    (hknown : ∀ e, o = some e → AtQos2 e.message ∧ e.message.mid = mid ∧
      l.published[e.serial]? = some e.message)
    (hphase : Phase mid l.processed o (l.held mid) (l.downs mid) (l.acks mid)) :
    (l.exchange mid o).Inv := by
  refine { h with phase := fun mid' => ?_, known := fun {mid' e} he => ?_ }
  · show Phase mid' l.processed (Function.update l.exchanges mid o mid') _ _ _
    by_cases hm : mid' = mid
    · subst hm
      rwa [Function.update_self]
    · rw [Function.update_of_ne hm]
      exact h.phase mid'
  · have he : Function.update l.exchanges mid o mid' = some e := he
    by_cases hm : mid' = mid
    · subst hm
      rw [Function.update_self] at he
      exact hknown e he
    · rw [Function.update_of_ne hm] at he
      exact h.known he

theorem Inv.publish (h : l.Inv) {message : Message} (h2 : AtQos2 message)
    (hfree : l.exchanges message.mid = none) : ({ l.exchange message.mid
      (some ⟨l.published.length, message, false, false, false⟩) with
        published := l.published ++ [message] } : Link).Inv := by
  have hgrow : ∀ {i : Nat}, i < l.published.length →
      (l.published ++ [message])[i]? = l.published[i]? := fun hi => List.getElem?_append_left hi
  have hmore : ({ l with published := l.published ++ [message] } : Link).Inv := by
    refine { h with known := fun he => ?_, bound := fun s hs => ?_, passed := ?_ }
    · obtain ⟨hq, hmid, hpub⟩ := h.known he
      refine ⟨hq, hmid, ?_⟩
      show (l.published ++ [message])[_]? = _
      rw [hgrow (List.getElem?_eq_some_iff.mp hpub).1, hpub]
    · show s < (l.published ++ [message]).length
      rw [List.length_append]
      have := h.bound s hs
      omega
    · show l.passed.map some = l.processed.map ((l.published ++ [message])[·]?)
      rw [h.passed]
      exact List.map_congr_left fun s hs => (hgrow (h.bound s hs)).symm
  refine hmore.exchange (fun e he => ?_) ?_
  · obtain rfl := Option.some.inj he
    exact ⟨h2, rfl, List.getElem?_concat_length⟩
  · have hphase := h.phase message.mid
    rw [hfree] at hphase
    show Phase message.mid l.processed _ (l.held _) (l.downs _) (l.acks _)
    generalize l.held message.mid = held, l.downs message.mid = ds, l.acks message.mid = as
      at hphase
    cases hphase with
    | idle hd ha =>
      have := @Phase.offered message.mid l.processed
        ⟨l.published.length, message, false, false, false⟩ ds [] as rfl
        (fun hmem => absurd (h.bound _ hmem) (lt_irrefl _)) hd (.inl rfl) ha
      rwa [List.append_nil] at this

theorem Inv.send (h : l.Inv) (he : l.exchanges mid = some e) (hr : e.released = false)
    (hsent : e.sent = false) : ((l.exchange mid (some { e with sent := true, again := true })).down
      (.publish e.serial { e.message with dup := e.again })).Inv := by
  have hphase := h.phase mid
  rw [he] at hphase
  obtain ⟨hq, hmid, hpub⟩ := h.known he
  have hexchange : (l.exchange mid (some { e with sent := true, again := true })).Inv := by
    refine h.exchange (fun e' he' => ?_) (hphase.send hr hsent false)
    obtain rfl := Option.some.inj he'
    exact ⟨hq, hmid, hpub⟩
  refine @Inv.down _ mid hexchange _ (fun mid' => ?_) ?_
  · show decide (e.message.mid = mid') = _
    rw [hmid]
    exact decide_eq_decide.mpr eq_comm
  · show Phase mid l.processed (Function.update l.exchanges mid _ mid) _ _ _
    rw [Function.update_self]
    exact hphase.send hr hsent true

theorem about_pubrel (serial : Nat) (mid mid' : UInt16) :
    (Down.pubrel serial mid).about mid' = decide (mid' = mid) :=
  decide_eq_decide.mpr eq_comm

theorem Inv.release (h : l.Inv) (he : l.exchanges mid = some e) (hr : e.released = true) :
    (l.down (.pubrel e.serial mid)).Inv := by
  have hphase := h.phase mid
  rw [he] at hphase
  refine h.down (about_pubrel e.serial mid) ?_
  rw [he]
  exact hphase.release hr true

/-- An acknowledgement is off its way, and the exchange of its message id is written to. -/
theorem Inv.pop (h : l.Inv) {ack : Ack} {out : List Ack} (hout : l.client.out = ack :: out)
    (hack : ∀ mid', ack.about mid' = decide (mid' = mid)) {o : Option Exchange}
    (hknown : ∀ e, o = some e → AtQos2 e.message ∧ e.message.mid = mid ∧
      l.published[e.serial]? = some e.message)
    (hphase : Phase mid l.processed o (l.held mid) (l.downs mid) (out.filter (·.about mid))) :
    (({ l with client := { l.client with out } } : Link).exchange mid o).Inv := by
  refine { h with phase := fun mid' => ?_, known := fun {mid' e} he => ?_ }
  · show Phase mid' l.processed (Function.update l.exchanges mid o mid') (l.held mid')
      (l.downs mid') (out.filter (·.about mid'))
    by_cases hm : mid' = mid
    · subst hm
      rwa [Function.update_self]
    · rw [Function.update_of_ne hm]
      have hacks : l.acks mid' = out.filter (·.about mid') := by
        unfold Link.acks
        rw [hout, List.filter_cons_of_neg (by rw [hack]; simpa using hm)]
      exact hacks ▸ h.phase mid'
  · have he : Function.update l.exchanges mid o mid' = some e := he
    by_cases hm : mid' = mid
    · subst hm
      rw [Function.update_self] at he
      exact hknown e he
    · rw [Function.update_of_ne hm] at he
      exact h.known he

/-- The broker reads an acknowledgement. -/
theorem Inv.hear (h : l.Inv) {ack : Ack} {out : List Ack} (hout : l.client.out = ack :: out) :
    (({ l with client := { l.client with out } } : Link).hear ack).Inv := by
  have hhead : ∀ mid, ack.about mid = true → l.acks mid = ack :: out.filter (·.about mid) := by
    intro mid habout
    unfold Link.acks
    rw [hout, List.filter_cons_of_pos habout]
  cases ack with
  | puback m =>
    refine { h with phase := fun mid => ?_ }
    have hacks : l.acks mid = out.filter (·.about mid) := by
      unfold Link.acks
      rw [hout, List.filter_cons_of_neg Bool.false_ne_true]
    have hphase := h.phase mid
    rw [hacks] at hphase
    exact hphase
  | pubrec m =>
    have hphase := h.phase m
    rw [hhead m (decide_eq_true rfl)] at hphase
    obtain ⟨e, he, hr, hnext⟩ := hphase.pubrec
    obtain ⟨hq, hmid, hpub⟩ := h.known he
    have hpop : (({ l with client := { l.client with out } } : Link).exchange m
        (some { e with released := true })).Inv := by
      refine h.pop hout (fun _ => decide_eq_decide.mpr eq_comm) (fun e' he' => ?_) (hnext false)
      obtain rfl := Option.some.inj he'
      exact ⟨hq, hmid, hpub⟩
    unfold Link.hear
    simp only
    rw [he]
    simp only
    rw [if_neg (by rw [hr]; decide)]
    refine hpop.down (about_pubrel e.serial m) ?_
    show Phase m l.processed (Function.update l.exchanges m _ m) _ _ _
    rw [Function.update_self]
    exact hnext true
  | pubcomp m =>
    have hphase := h.phase m
    rw [hhead m (decide_eq_true rfl)] at hphase
    have hpop := h.pop hout (fun _ => decide_eq_decide.mpr eq_comm) (fun e he => ?_) hphase.pubcomp
    · unfold Link.hear
      simp only
      have hsame : ({ l with client := { l.client with out } } : Link).exchange m (l.exchanges m) =
          { l with client := { l.client with out } } := by
        unfold Link.exchange
        simp only
        rw [Function.update_eq_self]
      cases hex : l.exchanges m with
      | none =>
        rw [hex, Option.filter_none, ← hex, hsame] at hpop
        exact hpop
      | some e =>
        simp only
        rw [hex, Option.filter_some] at hpop
        cases hr : e.released with
        | true =>
          rw [if_neg (by rw [hr]; decide)] at hpop
          exact hpop
        | false =>
          rw [if_pos (by rw [hr]; rfl), ← hex, hsame] at hpop
          exact hpop
    · exact h.known (Option.filter_eq_some_iff.mp he).1

/-! ### The client takes a packet -/

theorem filter_eraseP_self {α : Type} (p : α → Bool) (l : List α) :
    (l.eraseP p).filter p = (l.filter p).tail := by
  induction l with
  | nil => rfl
  | cons a l ih =>
    cases hp : p a with
    | true => rw [List.eraseP_cons_of_pos hp, List.filter_cons_of_pos hp, List.tail_cons]
    | false =>
      have hp : ¬ p a = true := by rw [hp]; decide
      rw [List.eraseP_cons_of_neg hp, List.filter_cons_of_neg hp, List.filter_cons_of_neg hp, ih]

theorem filter_eraseP_of_disjoint {α : Type} {p q : α → Bool} (h : ∀ a, p a = true → q a = false)
    (l : List α) : (l.eraseP p).filter q = l.filter q := by
  induction l with
  | nil => rfl
  | cons a l ih =>
    cases hp : p a with
    | true =>
      rw [List.eraseP_cons_of_pos hp, List.filter_cons_of_neg (by rw [h a hp]; decide)]
    | false =>
      rw [List.eraseP_cons_of_neg (by rw [hp]; decide), List.filter_cons, List.filter_cons, ih]

theorem filter_concat_of_neg {α : Type} {p : α → Bool} {a : α} (h : p a = false) (l : List α) :
    (l ++ [a]).filter p = l.filter p := by
  rw [List.filter_append, List.filter_cons_of_neg (by rw [h]; decide), List.filter_nil,
    List.append_nil]

theorem filter_concat_of_pos {α : Type} {p : α → Bool} {a : α} (h : p a = true) (l : List α) :
    (l ++ [a]).filter p = l.filter p ++ [a] := by
  rw [List.filter_append, List.filter_cons_of_pos h, List.filter_nil]

/-- The packets for another message id stay on their way. -/
theorem downs_of_not_about {d : Down} {rest : List Down} (hd : l.toClient = d :: rest)
    (h : d.about mid = false) : l.downs mid = rest.filter (·.about mid) := by
  unfold Link.downs
  rw [hd, List.filter_cons_of_neg (by rw [h]; decide)]

theorem downs_of_about {d : Down} {rest : List Down} (hd : l.toClient = d :: rest)
    (h : d.about mid = true) : l.downs mid = d :: rest.filter (·.about mid) := by
  unfold Link.downs
  rw [hd, List.filter_cons_of_pos h]

theorem acks_concat {out : List Ack} {ack : Ack}
    (hout : out = l.client.out ∨ out = l.client.out ++ [ack])
    (h : ack.about mid = false) : out.filter (·.about mid) = l.acks mid := by
  rcases hout with rfl | rfl
  · rfl
  · exact filter_concat_of_neg h _

theorem acks_concat_self {out : List Ack} {ack : Ack}
    (hout : out = l.client.out ∨ out = l.client.out ++ [ack]) (h : ack.about mid = true) :
    out.filter (·.about mid) = l.acks mid ∨ out.filter (·.about mid) = l.acks mid ++ [ack] := by
  rcases hout with rfl | rfl
  · exact .inl rfl
  · exact .inr (filter_concat_of_pos h _)

/-- The client takes a PUBLISH of QoS 2. -/
theorem Inv.takePublish (h : l.Inv) {serial : Nat} {message : Message} {rest : List Down}
    (hd : l.toClient = .publish serial message :: rest)
    (hclear : ∀ msg ∈ l.client.msgsIn, msg.mid ≠ message.mid) (net : Ack → Rc) :
    ({ l with toClient := rest, client := (handlePublish net message l.client).2 } : Link).Inv := by
  have hheld : l.held message.mid = [] := List.filter_eq_nil_iff.mpr fun msg hmsg heq =>
    hclear msg hmsg (of_decide_eq_true heq)
  have hphase := h.phase message.mid
  rw [hheld, downs_of_about hd (decide_eq_true rfl)] at hphase
  obtain ⟨h2, hrefused, htaken⟩ := hphase.publish fun e he => (h.known he).1
  have hother : ∀ mid, mid ≠ message.mid → l.downs mid = rest.filter (·.about mid) := fun mid hne =>
    downs_of_not_about hd (decide_eq_false (Ne.symm hne))
  rcases handlePublish_q2 net l.client h2 with hsame | ⟨hin, hon, hout⟩
  · rw [hsame]
    refine { h with phase := fun mid => ?_ }
    by_cases hm : mid = message.mid
    · subst hm
      rw [← hheld] at hrefused
      exact hrefused
    · have hphase := h.phase mid
      rw [hother mid hm] at hphase
      exact hphase
  · generalize (handlePublish net message l.client).2 = client at hin hon hout
    refine { h with phase := fun mid => ?_, qos2 := ?_, passed := ?_ }
    · show Phase mid l.processed (l.exchanges mid) (client.msgsIn.filter (·.mid = mid))
        (rest.filter (·.about mid)) (client.out.filter (·.about mid))
      rw [hin]
      by_cases hm : mid = message.mid
      · subst hm
        have hfilter : (l.client.msgsIn ++ [message]).filter (·.mid = message.mid) = [message] := by
          rw [filter_concat_of_pos (by exact decide_eq_true rfl)]
          exact congrArg (· ++ [message]) hheld
        rw [hfilter]
        exact htaken _ (acks_concat_self hout (decide_eq_true rfl))
      · rw [filter_concat_of_neg (by exact decide_eq_false (Ne.symm hm)),
          acks_concat hout (decide_eq_false (Ne.symm hm)), ← hother mid hm]
        exact h.phase mid
    · show ∀ msg ∈ client.msgsIn, msg.qos = 2
      rw [hin]
      intro msg hmsg
      rcases List.mem_append.mp hmsg with hmsg | hmsg
      · exact h.qos2 msg hmsg
      · rw [List.mem_singleton.mp hmsg]
        exact h2
    · show ((client.onMessage.filter (·.qos = 2)).map content).map some = _
      rw [hon]
      exact h.passed

/-- The client takes a message of another QoS. -/
theorem Inv.takeOther (h : l.Inv) {message : Message} {low : message.qos < 2} {rest : List Down}
    (hd : l.toClient = .other message low :: rest) (net : Ack → Rc) :
    ({ l with toClient := rest, client := (handlePublish net message l.client).2 } : Link).Inv := by
  obtain ⟨hin, hon, hout⟩ := handlePublish_other net l.client low
  generalize (handlePublish net message l.client).2 = client at hin hon hout
  refine { h with phase := fun mid => ?_, qos2 := ?_, passed := ?_ }
  · show Phase mid l.processed (l.exchanges mid) (client.msgsIn.filter (·.mid = mid))
      (rest.filter (·.about mid)) (client.out.filter (·.about mid))
    rw [hin, acks_concat hout rfl, ← downs_of_not_about hd rfl]
    exact h.phase mid
  · show ∀ msg ∈ client.msgsIn, msg.qos = 2
    rw [hin]
    exact h.qos2
  · show ((client.onMessage.filter (·.qos = 2)).map content).map some = _
    rw [hon]
    exact h.passed

theorem Inv.takePubrel (h : l.Inv) {serial : Nat} {rest : List Down} {net : Ack → Rc}
    (hd : l.toClient = .pubrel serial mid :: rest)
    (hclear : (∀ msg ∈ l.client.msgsIn, msg.mid ≠ mid) ∨ net (.pubcomp mid) = Rc.success) :
    ({ l with toClient := rest, client := (handlePubrel net (pubrelPacket mid) l.client).2
              processed := if l.client.state = .active ∧ serial ∉ l.processed then
                l.processed ++ [serial] else l.processed } : Link).Inv := by
  have hphase := h.phase mid
  rw [downs_of_about hd (by rw [about_pubrel]; exact decide_eq_true rfl)] at hphase
  have hdowns : ∀ mid', mid' ≠ mid → l.downs mid' = rest.filter (·.about mid') := fun mid' hne =>
    downs_of_not_about hd (by rw [about_pubrel]; exact decide_eq_false hne)
  have habout : ∀ mid', mid' ≠ mid → (Ack.pubcomp mid).about mid' = false := fun mid' hne =>
    decide_eq_false (Ne.symm hne)
  cases hheld : l.held mid with
  | nil =>
    rw [hheld] at hphase
    obtain ⟨hdone, hnext⟩ := hphase.pubrel_none
    have hnone : l.client.msgsIn.find? (·.mid = mid) = none :=
      List.find?_eq_none.mpr fun msg hmsg heq => List.filter_eq_nil_iff.mp hheld msg hmsg heq
    obtain ⟨hin, hon, hout⟩ := handlePubrel_none net hnone
    generalize (handlePubrel net (pubrelPacket mid) l.client).2 = client at hin hon hout
    rw [if_neg fun h => h.2 hdone]
    refine { h with phase := fun mid' => ?_, qos2 := ?_, passed := ?_ }
    · show Phase mid' l.processed (l.exchanges mid') (client.msgsIn.filter (·.mid = mid'))
        (rest.filter (·.about mid')) (client.out.filter (·.about mid'))
      rw [hin]
      by_cases hm : mid' = mid
      · subst hm
        rw [show l.client.msgsIn.filter (·.mid = mid') = [] from hheld]
        exact hnext _ (acks_concat_self hout (decide_eq_true rfl))
      · rw [acks_concat hout (habout mid' hm), ← hdowns mid' hm]
        exact h.phase mid'
    · show ∀ msg ∈ client.msgsIn, msg.qos = 2
      rw [hin]
      exact h.qos2
    · show ((client.onMessage.filter (·.qos = 2)).map content).map some = _
      rw [hon]
      exact h.passed
  | cons msg tail =>
    rw [hheld] at hphase
    obtain ⟨e, he, rfl, hnew, rfl, hcontent, hacks, hstays, hdone⟩ := hphase.pubrel_some
    obtain ⟨⟨-, h0, -, -⟩, hmid, hpub⟩ := h.known he
    have hmsg : msg ∈ l.client.msgsIn ∧ msg.mid = mid := by
      have hmem : msg ∈ l.held mid := hheld ▸ List.mem_cons_self
      obtain ⟨hmem, heq⟩ := List.mem_filter.mp hmem
      exact ⟨hmem, of_decide_eq_true heq⟩
    by_cases hactive : l.client.state = .active
    · have hnet := hclear.resolve_left fun h => h msg hmsg.1 hmsg.2
      have hfind : l.client.msgsIn.find? (·.mid = mid) = some msg := by
        rw [← List.head?_filter]
        exact congrArg List.head? hheld
      obtain ⟨hin, hon, hout⟩ := handlePubrel_some (hmid ▸ h0) hactive hnet hfind (h.qos2 _ hmsg.1)
      generalize (handlePubrel net (pubrelPacket mid) l.client).2 = client at hin hon hout
      rw [if_pos ⟨hactive, hnew⟩]
      refine { h with phase := fun mid' => ?_, qos2 := ?_, bound := ?_, nodup := ?_, passed := ?_ }
      · show Phase mid' (l.processed ++ [e.serial]) (l.exchanges mid')
          (client.msgsIn.filter (·.mid = mid')) (rest.filter (·.about mid'))
          (client.out.filter (·.about mid'))
        rw [hin, hout]
        by_cases hm : mid' = mid
        · subst hm
          rw [filter_eraseP_self, show l.client.msgsIn.filter (·.mid = mid') = [msg] from hheld,
            filter_concat_of_pos (by exact decide_eq_true rfl),
            show l.client.out.filter (·.about mid') = [] from hacks]
          exact hdone
        · have hdisjoint : ∀ a : Message, decide (a.mid = mid) = true →
              decide (a.mid = mid') = false := by
            intro a ha
            rw [of_decide_eq_true ha]
            exact decide_eq_false (Ne.symm hm)
          rw [filter_eraseP_of_disjoint hdisjoint, filter_concat_of_neg (habout mid' hm),
            ← hdowns mid' hm]
          exact (h.phase mid').mono fun e' he' => h.serial_ne he he' hm
      · show ∀ msg ∈ client.msgsIn, msg.qos = 2
        rw [hin]
        exact fun msg hmsg => h.qos2 msg (List.mem_of_mem_eraseP hmsg)
      · intro s hs
        rcases List.mem_append.mp hs with hs | hs
        · exact h.bound s hs
        · rw [List.mem_singleton.mp hs]
          exact (List.getElem?_eq_some_iff.mp hpub).1
      · exact List.nodup_append.mpr ⟨h.nodup, List.nodup_singleton _, fun a ha b hb => by
          rw [List.mem_singleton.mp hb]
          rintro rfl
          exact hnew ha⟩
      · show ((client.onMessage.filter (·.qos = 2)).map content).map some =
          (l.processed ++ [e.serial]).map (l.published[·]?)
        rw [hon, filter_concat_of_pos (by exact decide_eq_true (h.qos2 _ hmsg.1)), List.map_append,
          List.map_append, List.map_append]
        refine congrArg₂ (· ++ ·) h.passed ?_
        show [some (content msg)] = [l.published[e.serial]?]
        rw [hcontent, hpub]
    · have hsame : (handlePubrel net (pubrelPacket mid) l.client).2 = l.client := by
        unfold handlePubrel
        rw [if_pos hactive]
      rw [hsame, if_neg fun h => hactive h.1]
      refine { h with phase := fun mid' => ?_ }
      by_cases hm : mid' = mid
      · subst hm
        show Phase mid' l.processed (l.exchanges mid') (l.held mid') (rest.filter (·.about mid'))
          (l.acks mid')
        rw [hheld, hacks]
        exact hstays
      · have hphase := h.phase mid'
        rw [hdowns mid' hm] at hphase
        exact hphase

/-- The client takes a packet. -/
theorem Inv.take (h : l.Inv) {d : Down} {rest : List Down} {net : Ack → Rc}
    (hd : l.toClient = d :: rest) (hclear : l.Clear (.deliver net)) :
    (({ l with toClient := rest } : Link).take net d).2.Inv := by
  unfold Link.Clear at hclear
  rw [hd] at hclear
  cases d with
  | publish serial message => exact h.takePublish hd hclear net
  | pubrel serial mid => exact h.takePubrel hd hclear
  | other message low => exact h.takeOther hd net

/-- **One step keeps the invariant**, if it is clear. -/
theorem Inv.exec (h : l.Inv) {move : Move} (hclear : l.Clear move) : (l.exec move).Inv := by
  cases move with
  | publish message =>
    unfold Link.exec
    simp only
    split
    · rename_i hfree
      exact h.publish hfree.1 hfree.2
    · exact h
  | send mid =>
    unfold Link.exec
    simp only
    split
    · exact h
    · rename_i e he
      split
      · rename_i hsend
        exact h.send he hsend.2.1 hsend.2.2
      · exact h
  | release mid =>
    unfold Link.exec
    simp only
    split
    · exact h
    · rename_i e he
      split
      · rename_i hr
        exact h.release he hr
      · exact h
  | other message =>
    unfold Link.exec
    simp only
    split
    · rename_i low
      unfold Link.down
      split
      · refine { h with phase := fun mid => ?_ }
        have hdowns : (l.toClient ++ [Down.other message low]).filter (·.about mid) = l.downs mid :=
          filter_concat_of_neg rfl _
        show Phase mid l.processed (l.exchanges mid) (l.held mid)
          ((l.toClient ++ [Down.other message low]).filter (·.about mid)) (l.acks mid)
        rw [hdowns]
        exact h.phase mid
      · exact h
    · exact h
  | answer =>
    unfold Link.exec
    simp only
    split
    · exact h
    · rename_i ack out hout
      exact h.hear hout
  | deliver net =>
    unfold Link.exec
    simp only
    split
    · exact h
    · rename_i d rest hd
      have htake := h.take hd hclear
      split
      · exact htake
      · exact htake.close
  | disconnect => exact { h with }
  | connectionLost => exact h.close
  | reconnect reasonCode =>
    obtain ⟨hin, hon, hout⟩ := reconnected_spec h.qos2 reasonCode
    have hclient : (l.exec (.reconnect reasonCode)).client =
        (handleConnack reasonCode (reconnect l.client)).2 := rfl
    generalize (handleConnack reasonCode (reconnect l.client)).2 = client at hin hon hout hclient
    have hheld : ∀ mid, (l.exec (.reconnect reasonCode)).held mid = l.held mid := by
      intro mid
      unfold Link.held
      rw [hclient, hin]
    have hacks : ∀ mid, (l.exec (.reconnect reasonCode)).acks mid = [] := by
      intro mid
      unfold Link.acks
      rw [hclient, hout]
      rfl
    refine ⟨fun mid => ?_, fun {mid e} he => ?_, ?_, h.bound, h.nodup, ?_⟩
    · rw [hheld, hacks]
      exact (h.phase mid).reopen
    · have he : (l.exchanges mid).map ({ · with sent := false }) = some e := he
      obtain ⟨e', he', rfl⟩ := Option.map_eq_some_iff.mp he
      obtain ⟨hq, hmid, hpub⟩ := h.known he'
      exact ⟨hq, hmid, hpub⟩
    · rw [hclient, hin]
      exact h.qos2
    · show ((l.exec (.reconnect reasonCode)).client.onMessage.filter (·.qos = 2)
        |>.map content).map some = _
      rw [hclient, hon]
      exact h.passed

theorem Inv.run (h : l.Inv) {moves : List Move} (hclear : l.AllClear moves) :
    (l.run moves).Inv := by
  induction moves generalizing l with
  | nil => exact h
  | cons move moves ih => exact ih (h.exec hclear.1) hclear.2

end Inv

end Link

/-- **QoS 2 is received exactly once** in every run whose steps are clear: `on_message` was called
once for each message whose PUBREL the client has processed, with that message, and for no other. -/
theorem received_exactly_once (protocol : Protocol) (inflightMaximum : Nat) (moves : List Move)
    (hclear : (Link.start protocol inflightMaximum).AllClear moves) :
    ((Link.start protocol inflightMaximum).run moves).processed.Nodup ∧
      ((Link.start protocol inflightMaximum).run moves).passed.map some =
        ((Link.start protocol inflightMaximum).run moves).processed.map
          (((Link.start protocol inflightMaximum).run moves).published[·]?) := by
  have hinv := (Link.inv_start protocol inflightMaximum).run hclear
  exact ⟨hinv.nodup, hinv.passed⟩

/-- A message with id 1 and this payload. -/
def letter (payload : Bytes) : Message :=
  { topic := ascii "t", payload, qos := 2, mid := 1, retain := false, dup := false,
    properties := [] }

/-- Every packet is taken. -/
def taking : Ack → Rc := fun _ => Rc.success

/-- A message is published and its exchange begins. -/
def beginning : List Move := [.reconnect 0, .publish (letter [1]), .send 1, .deliver taking]

/-- The PUBREL comes, and the exchange ends. -/
def ending : List Move := [.answer, .deliver taking, .answer]

/-- The connection is lost with the PUBREL, which is sent again after the reconnection; then the
message id is used for another message. -/
def interrupted : List Move :=
  beginning ++ [.answer, .connectionLost, .reconnect 0, .release 1, .deliver taking, .answer] ++
    [.publish (letter [2]), .send 1, .deliver taking] ++ ending

/-- Two exchanges, one of them across a reconnection. -/
theorem received_once :
    ((Link.start .mqtt311 20).run interrupted).passed = [letter [1], letter [2]] ∧
    ((Link.start .mqtt311 20).run interrupted).processed = [0, 1] ∧
    ((Link.start .mqtt311 20).run interrupted).processed.Nodup ∧
      ((Link.start .mqtt311 20).run interrupted).passed.map some =
        ((Link.start .mqtt311 20).run interrupted).processed.map
          (((Link.start .mqtt311 20).run interrupted).published[·]?) := by
  have hnone : ∀ msg ∈ ([] : List Message), msg.mid ≠ 1 := nofun
  refine ⟨by decide +kernel, by decide +kernel, received_exactly_once .mqtt311 20 interrupted ?_⟩
  -- the two PUBLISHes find no message held, the two PUBRELs are answered
  exact ⟨trivial, trivial, trivial, hnone, trivial, trivial, trivial, trivial, .inr rfl, trivial,
    trivial, trivial, hnone, trivial, .inr rfl, trivial, trivial⟩

/-- The PUBREC of the first message is lost, and its PUBLISH is repeated after a reconnection; then
another message has its exchange. -/
def repeating : List Move :=
  beginning ++ [.connectionLost, .reconnect 0, .send 1, .deliver taking] ++ ending ++
    [.publish (letter [2]), .send 1, .deliver taking] ++ ending

/-- **A message that comes again is passed on again**: the copy that stays behind is what the next
message with its id is taken for. -/
theorem repeated_publish_passed_again :
    ((Link.start .mqtt311 20).run repeating).published = [letter [1], letter [2]] ∧
    ((Link.start .mqtt311 20).run repeating).processed = [0, 1] ∧
    ((Link.start .mqtt311 20).run repeating).passed = [letter [1], letter [1]] ∧
    ((Link.start .mqtt311 20).run repeating).passed.map some ≠
      ((Link.start .mqtt311 20).run repeating).processed.map
        (((Link.start .mqtt311 20).run repeating).published[·]?) := by
  refine ⟨?_, ?_, ?_, ?_⟩ <;> decide +kernel

end AdaptiveMqtt.Client
