import Mathlib.Data.List.ReduceOption
import AdaptiveMqtt.Packet.WsRead

/-!
# Where the two readers of packets agree

The callback of a websockets listener and `packet__read` accept the same streams exactly when
every packet of the stream, up to the first that is refused or whose handling fails, is one
that their different checks treat alike (`Alike`). The condition is on the bytes and on the
client before each packet, which only `handle__packet` changes.
-/

namespace AdaptiveMqtt.Packet

/-! ## The condition -/

/-- What follows a command byte: part of a remaining length, five digits of one, or a whole one
and the bytes after it. -/
inductive Header where
  | waiting
  | endless
  | known (command : UInt8) (digits length : Nat) (rest : Bytes)

/-- The ways to read a remaining length, of which some digits are read. There is one, except
after a command byte of 0: a reader that stops there takes the next byte for the command. -/
def headers : UInt8 → Nat → Nat → Bytes → List Header
  | _, _, _, [] => [.waiting]
  | command, read, sum, byte :: s =>
    (if command = 0 then headers byte read sum s else []) ++
      if read = 4 then [.endless]
      else if byte &&& 128 = 0 then
        [.known command (read + 1) (sum + (byte &&& 127).toNat * 128 ^ read) s]
      else headers command (read + 1) (sum + (byte &&& 127).toNat * 128 ^ read) s

section Alike

variable {σ : Type} (h : WsHost σ)

/-- Both readers take the command byte. -/
structure TakesCommand (mosq : σ) (byte : UInt8) : Prop where
  sock : h.hasSock mosq = true
  connect : byte &&& 0xF0 = 0x10 ∨
    h.state mosq ≠ .new ∧ (h.state mosq ≠ .connected ∨ h.bridge mosq = true)

/-- `packet__read` takes a packet of this length. -/
structure AllowsLength (mosq : σ) (command : UInt8) (length : Nat) : Prop where
  connect : (command &&& 0xF0).toNat = Cmd.connect → length ≤ 100000
  ack : (command &&& 0xF0).toNat ∈
    [Cmd.puback, Cmd.pubrec, Cmd.pubrel, Cmd.pubcomp, Cmd.unsuback] →
      h.protocol mosq = .mqtt5 ∨ length = 2
  ping : (command &&& 0xF0).toNat ∈ [Cmd.pingreq, Cmd.pingresp] → length = 0
  disconnect : (command &&& 0xF0).toNat = Cmd.disconnect →
    h.protocol mosq = .mqtt5 ∨ length = 0
  size : h.maxPacketSize = 0 ∨ length + 1 ≤ h.maxPacketSize

/-- The packet is not all there, and what is there is allowed. -/
def Header.Waits (mosq : σ) : Header → Prop
  | .waiting => True
  | .endless => False
  | .known command _ length rest => AllowsLength h mosq command length ∧ rest.length < length

/-- `packet__read` does not take the packet for its length. -/
def Header.Refused (mosq : σ) : Header → Prop
  | .waiting => False
  | .endless => True
  | .known command _ length _ => ¬ AllowsLength h mosq command length

/-- The checks of the two readers come to the same, for this client and stream. -/
inductive Alike : σ → Bytes → Prop where
  | nil {mosq : σ} : Alike mosq []
  | waits {mosq : σ} {command : UInt8} {s : Bytes} (taken : TakesCommand h mosq command)
      (short : ∀ header ∈ headers command 0 0 s, header.Waits h mosq) : Alike mosq (command :: s)
  | endless {mosq : σ} {command : UInt8} {s : Bytes}
      (fifth : ∀ header ∈ headers command 0 0 s, header = .endless) : Alike mosq (command :: s)
  | refused {mosq : σ} {command : UInt8} {s : Bytes} (new : h.state mosq = .new)
      (notConnect : command &&& 0xF0 ≠ 0x10)
      (size : h.hasSock mosq = true → ∀ header ∈ headers command 0 0 s, header.Refused h mosq) :
      Alike mosq (command :: s)
  | failed {mosq : σ} {command : UInt8} {digits : Nat} {s payload rest : Bytes}
      (nonzero : command ≠ 0) (taken : TakesCommand h mosq command)
      (whole : .known command digits payload.length (payload ++ rest) ∈ headers command 0 0 s)
      (allowed : AllowsLength h mosq command payload.length)
      (error : (h.handlePacket ⟨command, payload.length, payload⟩ mosq).1 ≠ Rc.success) :
      Alike mosq (command :: s)
  | next {mosq : σ} {command : UInt8} {digits : Nat} {s payload rest : Bytes}
      (nonzero : command ≠ 0) (taken : TakesCommand h mosq command)
      (whole : .known command digits payload.length (payload ++ rest) ∈ headers command 0 0 s)
      (allowed : AllowsLength h mosq command payload.length)
      (handled : (h.handlePacket ⟨command, payload.length, payload⟩ mosq).1 = Rc.success)
      (after : Alike (h.handlePacket ⟨command, payload.length, payload⟩ mosq).2 rest) :
      Alike mosq (command :: s)

end Alike

/-! ## Every way to stop -/

section Every

variable {σ : Type} {k : Checks σ} {h : Host σ} {conn : Conn σ} {verdict : Outcome × List Incoming}

/-- The verdict on these bytes, wherever the reader stops between them. -/
def Every (k : Checks σ) (h : Host σ) (begun : Bool) (conn : Conn σ) (s : Bytes)
    (verdict : Outcome × List Incoming) : Prop :=
  ∀ t : List (Option UInt8), t.reduceOption = s → scan k h begun conn t = verdict

theorem reduceOption_map_some (s : Bytes) : (s.map some).reduceOption = s := by
  induction s with
  | nil => rfl
  | cons byte s ih => rw [List.map_cons, List.reduceOption_cons_of_some, ih]

theorem scan_nothing {t : List (Option UInt8)} (ht : t.reduceOption = []) (begun : Bool) :
    scan k h begun conn t = (.pending, conn.handled) := by
  induction t generalizing begun with
  | nil => rfl
  | cons o t ih =>
    cases o with
    | none => exact ih ht false
    | some byte =>
      rw [List.reduceOption_cons_of_some] at ht
      cases ht

theorem every_nil {begun : Bool} :
    Every k h begun conn [] verdict ↔ verdict = (.pending, conn.handled) :=
  ⟨fun he => (he [] rfl).symm, fun hv _ ht => hv ▸ scan_nothing ht begun⟩

/-- The next byte, and whether the reader stops before it. -/
theorem scan_next {t : List (Option UInt8)} {byte : UInt8} {s : Bytes}
    (ht : t.reduceOption = byte :: s) (begun : Bool) : ∃ t', t'.reduceOption = s ∧
      (scan k h begun conn t = scan k h begun conn (some byte :: t') ∨
        scan k h begun conn t = scan k h false conn (some byte :: t')) := by
  induction t generalizing begun with
  | nil => cases ht
  | cons o t ih =>
    cases o with
    | none =>
      obtain ⟨t', ht', hs⟩ := ih ht false
      exact ⟨t', ht', .inr (hs.elim id id)⟩
    | some byte' =>
      rw [List.reduceOption_cons_of_some] at ht
      cases ht
      exact ⟨t, rfl, .inl rfl⟩

theorem every_cons {begun : Bool} {byte : UInt8} {s : Bytes} :
    Every k h begun conn (byte :: s) verdict ↔
      (∀ t : List (Option UInt8), t.reduceOption = s →
        scan k h begun conn (some byte :: t) = verdict) ∧
      ∀ t : List (Option UInt8), t.reduceOption = s →
        scan k h false conn (some byte :: t) = verdict := by
  constructor
  · refine fun he => ⟨fun t ht => he _ ?_, fun t ht => he (none :: some byte :: t) ?_⟩
    · rw [List.reduceOption_cons_of_some, ht]
    · rw [List.reduceOption_cons_of_none, List.reduceOption_cons_of_some, ht]
  · rintro ⟨hgo, hstop⟩ t ht
    obtain ⟨t', ht', hs | hs⟩ := @scan_next _ k h conn _ _ _ ht begun
    · rw [hs, hgo t' ht']
    · rw [hs, hstop t' ht']

theorem forall_const_verdict {s : Bytes} {v : Outcome × List Incoming} :
    (∀ t, List.reduceOption t = s → v = verdict) ↔ verdict = v :=
  ⟨fun he => (he _ (reduceOption_map_some s)).symm, fun hv _ _ => hv.symm⟩

/-! ### The remaining length -/

/-- Some digits of the remaining length are read. -/
def Conn.counting (conn : Conn σ) (command : UInt8) (read sum : Nat) : Conn σ :=
  { conn with inPacket := ⟨command, -read, 128 ^ read, sum, [], 0⟩ }

/-- All of them are read. -/
def Conn.known (conn : Conn σ) (command : UInt8) (digits length : Nat) : Conn σ :=
  { conn with inPacket := ⟨command, digits, 128 ^ digits, length, [], length⟩ }

@[simp] theorem counting_mosq (command : UInt8) (read sum : Nat) :
    (conn.counting command read sum).mosq = conn.mosq := rfl

@[simp] theorem counting_handled (command : UInt8) (read sum : Nat) :
    (conn.counting command read sum).handled = conn.handled := rfl

theorem counting_open (command : UInt8) (read sum : Nat) :
    ¬ (conn.counting command read sum).Complete := fun hf => by
  have hcount : 0 < -(read : Int) := hf.1
  omega

theorem lengthByte_counting (command : UInt8) {read : Nat} (hread : read ≤ 4) (sum : Nat)
    (byte : UInt8) : (read = 4 → ∃ r, lengthByte (conn.counting command read sum) byte = .error r) ∧
      (read ≠ 4 → lengthByte (conn.counting command read sum) byte = .ok (byte &&& 128 = 0,
        conn.counting command (read + 1) (sum + (byte &&& 127).toNat * 128 ^ read))) := by
  have hcount : -(read : Int) - 1 = -((read + 1 : Nat) : Int) := by
    push_cast
    omega
  unfold lengthByte
  simp only [Conn.counting, hcount, Nat.pow_succ]
  refine ⟨fun hlast => ?_, fun hmore => ?_⟩
  · rw [if_pos (by omega)]
    exact ⟨_, rfl⟩
  · rw [if_neg (by omega)]

theorem counting_sized (command : UInt8) (digits length : Nat) :
    (conn.counting command digits length).sized = conn.known command digits length := by
  simp only [Conn.sized, Conn.counting, Conn.known, Int.neg_neg]

/-- What a header makes of the verdict. -/
def Settles (k : Checks σ) (h : Host σ) (conn : Conn σ) (verdict : Outcome × List Incoming) :
    Header → Prop
  | .waiting => verdict = (.pending, conn.handled)
  | .endless => verdict = (.rejected, conn.handled)
  | .known command digits length rest =>
    if k.length conn.mosq (conn.known command digits length).inPacket then
      verdict = (.rejected, conn.handled)
    else ∀ t : List (Option UInt8), t.reduceOption = rest →
      scanOn k h (conn.known command digits length) t = verdict

/-- A byte of the remaining length, without a stop before it. -/
theorem counting_step {command byte : UInt8} {read sum : Nat} {s : Bytes}
    (hgone : k.gone conn.mosq = false) (hread : read ≤ 4)
    (ih : ∀ {read sum : Nat}, read ≤ 4 →
      (Every k h true (conn.counting command read sum) s verdict ↔
        ∀ header ∈ headers command read sum s, Settles k h conn verdict header)) :
    (∀ t : List (Option UInt8), t.reduceOption = s →
      scan k h true (conn.counting command read sum) (some byte :: t) = verdict) ↔
    ∀ header ∈ (if read = 4 then [.endless]
      else if byte &&& 128 = 0 then
        [.known command (read + 1) (sum + (byte &&& 127).toNat * 128 ^ read) s]
      else headers command (read + 1) (sum + (byte &&& 127).toNat * 128 ^ read) s),
        Settles k h conn verdict header := by
  have hcount : (conn.counting command read sum).inPacket.remainingCount ≤ 0 := by
    show -(read : Int) ≤ 0
    omega
  obtain ⟨hfifth, hdigit⟩ := @lengthByte_counting _ conn command _ hread sum byte
  simp only [@scan_length _ k h (conn.counting command read sum) _ _ hgone hcount]
  by_cases hlast : read = 4
  · obtain ⟨r, hr⟩ := hfifth hlast
    simp only [hr, if_pos hlast, List.forall_mem_singleton]
    exact forall_const_verdict
  · simp only [hdigit hlast, if_neg hlast]
    by_cases hend : byte &&& 128 = 0
    · simp only [hend, decide_true, if_true, List.forall_mem_singleton, counting_sized, Settles,
        counting_mosq, counting_handled]
      by_cases hrefused : k.length conn.mosq (conn.known command (read + 1)
          (sum + (byte &&& 127).toNat * 128 ^ read)).inPacket = true
      · simp only [hrefused, if_true]
        exact forall_const_verdict
      · simp only [hrefused, Bool.false_eq_true, if_false]
    · simp only [hend, decide_false, if_false]
      exact ih (by omega)

/-- **The remaining length**, wherever the reader stops in it. -/
theorem every_counting (hgone : k.gone conn.mosq = false) (s : Bytes) {command : UInt8}
    {read sum : Nat} (hread : read ≤ 4)
    (hcommand : command = 0 → ∀ byte, k.command conn.mosq byte = false) :
    Every k h true (conn.counting command read sum) s verdict ↔
      ∀ header ∈ headers command read sum s, Settles k h conn verdict header := by
  induction s generalizing command read sum with
  | nil => rw [every_nil, headers, List.forall_mem_singleton]; rfl
  | cons byte s ih =>
    have hstep := @counting_step _ k h conn verdict command byte read sum s hgone hread
      (fun hread => ih hread hcommand)
    rw [every_cons, hstep, headers, List.forall_mem_append, and_comm]
    refine and_congr_left fun _ => ?_
    by_cases hzero : command = 0
    · have hscan : ∀ t, scan k h false (conn.counting command read sum) (some byte :: t) =
          scan k h true (conn.counting byte read sum) t := fun t => by
        have hrefused : ¬ k.command conn.mosq byte = true := by
          rw [hcommand hzero byte]
          decide
        rw [@scan_command _ k h (conn.counting command read sum) _ _ hgone hzero
          (counting_open command read sum)]
        exact if_neg hrefused
      simp only [hscan, if_pos hzero]
      exact ih hread fun _ => hcommand hzero
    · simp only [if_neg hzero, List.not_mem_nil, false_implies, implies_true, iff_true,
        @scan_stop _ k h (conn.counting command read sum) hzero]
      exact hstep.mpr ‹_›

/-! ### The payload -/

/-- Fewer bytes than the payload has. -/
theorem scan_short {t : List (Option UInt8)} {begun : Bool} {conn : Conn σ}
    (hgone : k.gone conn.mosq = false)
    (hcommand : conn.inPacket.command = 0 → ∀ byte, k.command conn.mosq byte = false)
    (hcount : 0 < conn.inPacket.remainingCount)
    (hshort : t.reduceOption.length < conn.inPacket.toProcess) :
    scan k h begun conn t = (.pending, conn.handled) := by
  induction t generalizing begun conn with
  | nil => rfl
  | cons o t ih =>
    cases o with
    | none => exact ih hgone hcommand hcount hshort
    | some byte =>
      rw [List.reduceOption_cons_of_some, List.length_cons] at hshort
      have hopen : ¬ conn.Complete := fun hf => by
        have := hf.2
        omega
      by_cases hzero : conn.inPacket.command = 0 ∧ begun = false
      · obtain ⟨hcmd, rfl⟩ := hzero
        have hrefused : ¬ k.command conn.mosq byte = true := by
          rw [hcommand hcmd byte]
          decide
        rw [scan_command hgone hcmd hopen, if_neg hrefused]
        exact ih hgone (fun _ => hcommand hcmd) hcount (by
          show _ < conn.inPacket.toProcess
          omega)
      · have htake : k.take begun conn byte = some (payloadBytes conn [byte]) := by
          unfold Checks.take
          rw [if_neg hzero, if_neg (by omega)]
        have hleft : (payloadBytes conn [byte]).inPacket.toProcess =
            conn.inPacket.toProcess - 1 := rfl
        rw [scan_some hgone, htake]
        show scanOn k h (payloadBytes conn [byte]) t = _
        rw [scanOn_open fun hf => by
          have := hf.2
          omega]
        exact ih hgone hcommand hcount (by omega)

/-- A whole payload, wherever the reader stops in it. -/
theorem scanOn_whole {payload rest : Bytes} {conn : Conn σ} (hgone : k.gone conn.mosq = false)
    (hcmd : conn.inPacket.command ≠ 0) (hcount : 0 < conn.inPacket.remainingCount)
    (hlen : conn.inPacket.toProcess = payload.length) {t : List (Option UInt8)}
    (ht : t.reduceOption = payload ++ rest) : ∃ t', t'.reduceOption = rest ∧
      scanOn k h conn t = scanDone k h (payloadBytes conn payload) t' := by
  induction payload generalizing conn t with
  | nil => exact ⟨t, ht, by rw [payloadBytes_nil, scanOn_done ⟨hcount, hlen⟩]⟩
  | cons byte payload ih =>
    have hopen : ¬ conn.Complete := fun hf => by
      have := hf.2
      rw [hlen, List.length_cons] at this
      omega
    obtain ⟨t₁, ht₁, hs⟩ := @scan_next _ k h conn _ _ _ ht true
    have htake : k.take true conn byte = some (payloadBytes conn [byte]) := by
      unfold Checks.take
      rw [if_neg (fun hf => absurd hf.2 (by decide)), if_neg (by omega)]
    have hstep : scanOn k h conn t = scanOn k h (payloadBytes conn [byte]) t₁ := by
      rw [scanOn_open hopen, hs.elim id fun hs => hs.trans (scan_stop hcmd _), scan_some hgone,
        htake]
    obtain ⟨t', ht', hrest⟩ := @ih (payloadBytes conn [byte]) hgone hcmd hcount (by
      simp only [payloadBytes, hlen, List.length_cons, List.length_nil]
      omega) t₁ ht₁
    rw [payloadBytes_append] at hrest
    exact ⟨t', ht', hstep.trans hrest⟩

/-- A client between two packets. -/
def Conn.idle (mosq : σ) (handled : List Incoming) : Conn σ := ⟨mosq, packetCleanup, handled⟩

theorem known_complete {command : UInt8} {digits length : Nat} (hdigits : 0 < digits)
    {payload : Bytes} (hlen : payload.length = length) :
    (payloadBytes (conn.known command digits length) payload).Complete := by
  refine ⟨?_, ?_⟩
  · show (0 : Int) < digits
    omega
  · show length - payload.length = 0
    omega

/-- **A whole packet**: the verdict is that on what comes after it. -/
theorem known_whole (hgone : k.gone conn.mosq = false) {command : UInt8} (hcmd : command ≠ 0)
    (digits : Nat) (payload rest : Bytes) (hdigits : 0 < digits) :
    (∀ t, List.reduceOption t = payload ++ rest →
      scanOn k h (conn.known command digits payload.length) t = verdict) ↔
    if (h.handlePacket ⟨command, payload.length, payload⟩ conn.mosq).1 = Rc.success then
      Every k h false (.idle (h.handlePacket ⟨command, payload.length, payload⟩ conn.mosq).2
        (conn.handled ++ [⟨command, payload.length, payload⟩])) rest verdict
    else verdict = (.failed, conn.handled ++ [⟨command, payload.length, payload⟩]) := by
  have hcount : 0 < (conn.known command digits payload.length).inPacket.remainingCount := by
    show (0 : Int) < digits
    omega
  have hdone : ∀ t, scanDone k h
      (payloadBytes (conn.known command digits payload.length) payload) t =
      if (h.handlePacket ⟨command, payload.length, payload⟩ conn.mosq).1 = Rc.success then
        scan k h false (.idle (h.handlePacket ⟨command, payload.length, payload⟩ conn.mosq).2
          (conn.handled ++ [⟨command, payload.length, payload⟩])) t
      else (.failed, conn.handled ++ [⟨command, payload.length, payload⟩]) := fun _ => rfl
  have hall : (∀ t, List.reduceOption t = payload ++ rest →
      scanOn k h (conn.known command digits payload.length) t = verdict) ↔
      ∀ t, List.reduceOption t = rest → scanDone k h
        (payloadBytes (conn.known command digits payload.length) payload) t = verdict := by
    constructor
    · intro he t ht
      have hbytes := he (payload.map some ++ t) (by
        rw [List.reduceOption_append, reduceOption_map_some, ht])
      rwa [@scanOn_payload _ k h _ payload (conn.known command digits payload.length) hgone hcount
        (Nat.le_refl _), scanOn_done (known_complete hdigits rfl)] at hbytes
    · intro he t ht
      obtain ⟨t', ht', hscan⟩ := @scanOn_whole _ k h _ _
        (conn.known command digits payload.length) hgone hcmd hcount rfl t ht
      rw [hscan, he t' ht']
  rw [hall]
  simp only [hdone]
  split
  · rfl
  · exact forall_const_verdict

/-- A byte does not touch the packets that were handled, and the command only where it is one. -/
theorem take_handled {begun : Bool} {byte : UInt8} {c : Conn σ}
    (ht : k.take begun conn byte = some c) : c.handled = conn.handled ∧
      (c.inPacket.command = conn.inPacket.command ∨
        conn.inPacket.command = 0 ∧ begun = false ∧
          c = { conn with inPacket := { conn.inPacket with command := byte } }) := by
  unfold Checks.take at ht
  split at ht
  · rename_i hcmd
    split at ht
    · cases ht
    · cases ht
      exact ⟨rfl, .inr ⟨hcmd.1, hcmd.2, rfl⟩⟩
  · split at ht
    · split at ht
      · cases ht
      · rename_i c' hl
        cases ht
        exact ⟨(lengthByte_ok hl).2.1, .inl (lengthByte_ok hl).2.2.1⟩
      · rename_i c' hl
        split at ht
        · cases ht
        · cases ht
          exact ⟨(lengthByte_ok hl).2.1, .inl (lengthByte_ok hl).2.2.1⟩
    · cases ht
      exact ⟨rfl, .inl rfl⟩

theorem scan_extends (begun : Bool) (conn : Conn σ) (t : List (Option UInt8)) :
    conn.handled <+: (scan k h begun conn t).2 := by
  induction t generalizing begun conn with
  | nil => exact List.prefix_rfl
  | cons o t ih =>
    cases o with
    | none => exact ih false conn
    | some byte =>
      by_cases hgone : k.gone conn.mosq = true
      · rw [scan_gone hgone]
      · rw [scan_some (by simpa using hgone)]
        match htake : k.take begun conn byte with
        | none => exact List.prefix_rfl
        | some c =>
          have hh : c.handled = conn.handled := (take_handled htake).1
          simp only [scanOn, scanDone]
          split
          · have hdone : conn.handled <+: (packetDone h c).2.handled := by
              rw [← hh]
              exact List.prefix_append _ _
            split
            · exact hdone.trans (ih _ _)
            · exact hdone
          · exact hh ▸ ih true c

/-- A payload that is all there: the packet is handled if the reader does not stop. -/
theorem known_handled (hgone : k.gone conn.mosq = false) {command : UInt8} {digits length : Nat}
    {rest : Bytes} (hdigits : 0 < digits) (hlen : length ≤ rest.length)
    (he : ∀ t, List.reduceOption t = rest →
      scanOn k h (conn.known command digits length) t = verdict) :
    ∃ packet : Incoming, packet.command = command ∧ conn.handled ++ [packet] <+: verdict.2 := by
  have hcount : 0 < (conn.known command digits length).inPacket.remainingCount := by
    show (0 : Int) < digits
    omega
  have htake : (rest.take length).length = length := by
    rw [List.length_take]
    omega
  have hbytes := he ((rest.take length).map some ++ (rest.drop length).map some) (by
    rw [← List.map_append, List.take_append_drop, reduceOption_map_some])
  rw [@scanOn_payload _ k h _ _ (conn.known command digits length) hgone hcount htake.le,
    scanOn_done (known_complete hdigits htake)] at hbytes
  refine ⟨⟨command, length, rest.take length⟩, rfl, ?_⟩
  rw [← hbytes, scanDone]
  split
  · exact scan_extends false (packetDone h (payloadBytes (conn.known command digits length)
      (rest.take length))).2 _
  · exact List.prefix_rfl

def stopping (s : Bytes) : List (Option UInt8) := s.flatMap fun byte => [none, some byte]

theorem reduceOption_stopping (s : Bytes) : (stopping s).reduceOption = s := by
  induction s with
  | nil => rfl
  | cons byte s ih =>
    show List.reduceOption (none :: some byte :: stopping s) = _
    rw [List.reduceOption_cons_of_none, List.reduceOption_cons_of_some, ih]

/-- Then a command of 0 is no command. -/
theorem scan_stopping (begun : Bool) (s : Bytes) {conn : Conn σ} (hopen : ¬ conn.Complete) :
    ∃ packets, (scan k h begun conn (stopping s)).2 = conn.handled ++ packets ∧
      ∀ packet ∈ packets, packet.command ≠ 0 := by
  induction s generalizing begun conn with
  | nil => exact ⟨[], (List.append_nil _).symm, by rintro _ ⟨⟩⟩
  | cons byte s ih =>
    show ∃ packets, (scan k h false conn (some byte :: stopping s)).2 = _ ∧ _
    by_cases hgone : k.gone conn.mosq = true
    · rw [scan_gone hgone]
      exact ⟨[], (List.append_nil _).symm, by rintro _ ⟨⟩⟩
    · rw [scan_some (by simpa using hgone)]
      match htake : k.take false conn byte with
      | none => exact ⟨[], (List.append_nil _).symm, by rintro _ ⟨⟩⟩
      | some c =>
        obtain ⟨hh, hcmd⟩ := take_handled htake
        simp only
        by_cases hdone : c.Complete
        · have hzero : c.inPacket.command ≠ 0 := by
            intro hzero
            rcases hcmd with hsame | ⟨-, -, rfl⟩
            · have hcommand : conn.inPacket.command = 0 := hsame ▸ hzero
              unfold Checks.take at htake
              rw [if_pos ⟨hcommand, rfl⟩] at htake
              split at htake
              · cases htake
              · cases htake
                exact hopen hdone
            · exact hopen hdone
          rw [scanOn_done hdone, scanDone]
          split
          · obtain ⟨packets, hp, hall⟩ := @ih false (packetDone h c).2 fun hf =>
              absurd hf.1 (by simp [packetDone, packetCleanup])
            refine ⟨⟨c.inPacket.command, c.inPacket.remainingLength, c.inPacket.payload⟩ :: packets,
              ?_, List.forall_mem_cons.mpr ⟨hzero, hall⟩⟩
            rw [hp, ← hh, List.append_cons]
            rfl
          · exact ⟨[⟨c.inPacket.command, c.inPacket.remainingLength, c.inPacket.payload⟩],
              by rw [← hh]; rfl, List.forall_mem_singleton.mpr hzero⟩
        · rw [scanOn_open hdone, ← hh]
          exact ih true hdone

end Every

/-! ## A packet under both readers -/

section Settled

variable {σ : Type} {k : Checks σ} {h : Host σ} {mosq : σ} {handled : List Incoming}
  {verdict : Outcome × List Incoming} {command : UInt8} {s : Bytes}

/-- A reader that takes a command byte of 0 takes any. -/
def Checks.Uniform (k : Checks σ) : Prop :=
  ∀ mosq, k.command mosq 0 = false → ∀ byte, k.command mosq byte = false

/-- A command byte that is not taken. -/
theorem every_refused (hr : k.gone mosq = true ∨ k.command mosq command = true) :
    Every k h false (.idle mosq handled) (command :: s) verdict ↔ verdict = (.rejected, handled) := by
  have hscan : ∀ t, scan k h false (.idle mosq handled) (some command :: t) =
      (.rejected, handled) := by
    intro t
    by_cases hgone : k.gone mosq = true
    · exact scan_gone hgone _ _ _
    · have htaken : k.gone mosq = false := by simpa using hgone
      rw [@scan_command _ k h (.idle mosq handled) _ _ htaken rfl
        fun hf => absurd hf.1 (by simp [Conn.idle, packetCleanup])]
      exact if_pos (hr.resolve_left hgone)
  simp only [every_cons, hscan, and_self]
  exact forall_const_verdict

theorem every_taken (hk : k.Uniform) (hgone : k.gone mosq = false)
    (hcmd : k.command mosq command = false) :
    Every k h false (.idle mosq handled) (command :: s) verdict ↔
      ∀ header ∈ headers command 0 0 s, Settles k h (.idle mosq handled) verdict header := by
  have hscan : ∀ t, scan k h false (.idle mosq handled) (some command :: t) =
      scan k h true ((Conn.idle mosq handled).counting command 0 0) t := by
    intro t
    rw [@scan_command _ k h (.idle mosq handled) _ _ hgone rfl
      fun hf => absurd hf.1 (by simp [Conn.idle, packetCleanup])]
    exact if_neg (by rw [show k.command (Conn.idle mosq handled).mosq command = false from hcmd]
                     decide)
  rw [← @every_counting _ k h (.idle mosq handled) _ hgone s _ _ _ (Nat.zero_le 4)
    fun hzero => hk mosq (hzero ▸ hcmd)]
  simp only [every_cons, hscan, and_self]
  rfl

/-- The packets that are there in the stream. -/
theorem headers_known {c : UInt8} {digits length read sum : Nat} {rest : Bytes}
    (hm : .known c digits length rest ∈ headers command read sum s) :
    0 < digits ∧ rest.length < s.length ∧ (command ≠ 0 → c = command) := by
  induction s generalizing command read sum with
  | nil => exact absurd hm (by simp [headers])
  | cons byte s ih =>
    have hlonger : s.length < (byte :: s).length := Nat.lt_succ_self _
    rw [headers, List.mem_append] at hm
    rcases hm with hm | hm
    · split at hm
      · rename_i hzero
        obtain ⟨hd, hr, -⟩ := ih hm
        exact ⟨hd, hr.trans hlonger, fun hnot => absurd hzero hnot⟩
      · cases hm
    · split at hm
      · simp at hm
      · split at hm
        · simp only [List.mem_singleton, Header.known.injEq] at hm
          obtain ⟨rfl, rfl, -, rfl⟩ := hm
          exact ⟨Nat.succ_pos _, hlonger, fun _ => rfl⟩
        · obtain ⟨hd, hr, hc⟩ := ih hm
          exact ⟨hd, hr.trans hlonger, hc⟩

/-- One way to read the remaining length keeps the command. -/
theorem headers_own (command : UInt8) (read sum : Nat) (s : Bytes) :
    ∃ header ∈ headers command read sum s,
      ∀ c digits length rest, header = .known c digits length rest → c = command := by
  induction s generalizing read sum with
  | nil => exact ⟨.waiting, List.mem_singleton.mpr rfl, by rintro _ _ _ _ ⟨⟩⟩
  | cons byte s ih =>
    rw [headers]
    by_cases hlast : read = 4
    · rw [if_pos hlast]
      exact ⟨.endless, List.mem_append_right _ (List.mem_singleton.mpr rfl), by rintro _ _ _ _ ⟨⟩⟩
    · rw [if_neg hlast]
      by_cases hend : byte &&& 128 = 0
      · rw [if_pos hend]
        exact ⟨_, List.mem_append_right _ (List.mem_singleton.mpr rfl), by rintro _ _ _ _ ⟨⟩; rfl⟩
      · rw [if_neg hend]
        obtain ⟨header, hm, hown⟩ := ih (read + 1) (sum + (byte &&& 127).toNat * 128 ^ read)
        exact ⟨header, List.mem_append_right _ hm, hown⟩

theorem settles_refused {c : UInt8} {digits length : Nat} {rest : Bytes}
    (hlength : k.length mosq ((Conn.idle mosq handled).known c digits length).inPacket = true) :
    Settles k h (.idle mosq handled) verdict (.known c digits length rest) ↔
      verdict = (.rejected, handled) := by
  have hr : k.length (Conn.idle mosq handled).mosq
      ((Conn.idle mosq handled).known c digits length).inPacket = true := hlength
  rw [Settles, if_pos hr]
  rfl

theorem settles_allowed {c : UInt8} {digits length : Nat} {rest : Bytes}
    (hlength : k.length mosq ((Conn.idle mosq handled).known c digits length).inPacket = false) :
    Settles k h (.idle mosq handled) verdict (.known c digits length rest) ↔
      ∀ t, List.reduceOption t = rest →
        scanOn k h ((Conn.idle mosq handled).known c digits length) t = verdict := by
  have hr : ¬ k.length (Conn.idle mosq handled).mosq
      ((Conn.idle mosq handled).known c digits length).inPacket = true := by
    rw [show k.length (Conn.idle mosq handled).mosq _ = false from hlength]
    decide
  rw [Settles, if_neg hr]

/-- There is one way to read a remaining length after another command byte. -/
theorem headers_unique (hzero : command ≠ 0) {read sum : Nat} {header header' : Header}
    (hm : header ∈ headers command read sum s) (hm' : header' ∈ headers command read sum s) :
    header = header' := by
  induction s generalizing read sum with
  | nil => exact (List.mem_singleton.mp hm).trans (List.mem_singleton.mp hm').symm
  | cons byte s ih =>
    rw [headers, if_neg hzero, List.nil_append] at hm hm'
    split at hm
    · rename_i hlast
      rw [if_pos hlast] at hm'
      exact (List.mem_singleton.mp hm).trans (List.mem_singleton.mp hm').symm
    · rename_i hlast
      rw [if_neg hlast] at hm'
      split at hm
      · rename_i hend
        rw [if_pos hend] at hm'
        exact (List.mem_singleton.mp hm).trans (List.mem_singleton.mp hm').symm
      · rename_i hend
        rw [if_neg hend] at hm'
        exact ih hm hm'

/-- **A whole packet that a reader takes.** -/
theorem every_whole (hk : k.Uniform) (hgone : k.gone mosq = false)
    (hcmd : k.command mosq command = false) (hzero : command ≠ 0) {digits : Nat}
    {payload rest : Bytes}
    (hm : .known command digits payload.length (payload ++ rest) ∈ headers command 0 0 s)
    (hlength : k.length mosq
      ((Conn.idle mosq handled).known command digits payload.length).inPacket = false)
    (hrest : if (h.handlePacket ⟨command, payload.length, payload⟩ mosq).1 = Rc.success then
        Every k h false (.idle (h.handlePacket ⟨command, payload.length, payload⟩ mosq).2
          (handled ++ [⟨command, payload.length, payload⟩])) rest verdict
      else verdict = (.failed, handled ++ [⟨command, payload.length, payload⟩])) :
    Every k h false (.idle mosq handled) (command :: s) verdict := by
  refine (every_taken hk hgone hcmd).mpr fun header hm' => ?_
  rw [headers_unique hzero hm' hm, settles_allowed hlength]
  exact (@known_whole _ k h (.idle mosq handled) _ hgone _ hzero digits payload rest
    (headers_known hm).1).mpr hrest

/-- Part of a payload. -/
theorem settles_short (hk : k.Uniform) (hgone : k.gone mosq = false)
    (hcmd : k.command mosq command = false) {c : UInt8} {digits length : Nat} {rest : Bytes}
    (hm : .known c digits length rest ∈ headers command 0 0 s)
    (hlength : k.length mosq ((Conn.idle mosq handled).known c digits length).inPacket = false)
    (hshort : rest.length < length) :
    Settles k h (.idle mosq handled) verdict (.known c digits length rest) ↔
      verdict = (.pending, handled) := by
  obtain ⟨hdigits, -, hc⟩ := headers_known hm
  have hfree : c = 0 → ∀ byte, k.command mosq byte = false := fun hzero => by
    by_cases hcommand : command = 0
    · exact hk mosq (hcommand ▸ hcmd)
    · exact absurd ((hc hcommand).symm.trans hzero) hcommand
  have hscan : ∀ t, List.reduceOption t = rest →
      scanOn k h ((Conn.idle mosq handled).known c digits length) t = (.pending, handled) := by
    intro t ht
    rw [scanOn_open fun hf => by
      have : length = 0 := hf.2
      omega]
    exact @scan_short _ k h t _ ((Conn.idle mosq handled).known c digits length) hgone hfree
      (by show (0 : Int) < digits; omega) (by rw [ht]; exact hshort)
  rw [settles_allowed hlength]
  constructor
  · intro he
    rw [← he _ (reduceOption_map_some rest), hscan _ (reduceOption_map_some rest)]
  · rintro rfl
    exact hscan

/-- A payload that is all there and is not refused. -/
theorem settles_whole (hgone : k.gone mosq = false) {c : UInt8} {digits length : Nat}
    {rest : Bytes} (hdigits : 0 < digits)
    (hlength : k.length mosq ((Conn.idle mosq handled).known c digits length).inPacket = false)
    (hlong : length ≤ rest.length)
    (hs : Settles k h (.idle mosq handled) verdict (.known c digits length rest)) :
    ∃ packet : Incoming, packet.command = c ∧ handled ++ [packet] <+: verdict.2 := by
  rw [settles_allowed hlength] at hs
  exact @known_handled _ k h (.idle mosq handled) _ hgone _ _ _ _ hdigits hlong hs

theorem handled_ne {packet : Incoming} {o : Outcome} (hp : handled ++ [packet] <+: verdict.2) :
    verdict ≠ (o, handled) := by
  rintro rfl
  have := hp.length_le
  simp only [List.length_append, List.length_singleton] at this
  omega

end Settled

/-! ## The two readers -/

section Agree

variable {σ : Type} {h : WsHost σ} {mosq : σ} {handled : List Incoming}
  {verdict : Outcome × List Incoming} {command : UInt8} {s : Bytes}

theorem sizeRefused_iff (mosq : σ) (p : InPacket) :
    sizeRefused h mosq p = false ↔ AllowsLength h mosq p.command p.remainingLength := by
  have hlength : lengthRefused h.toHost mosq p = false ↔
      ((p.command &&& 0xF0).toNat = Cmd.connect → p.remainingLength ≤ 100000) ∧
      ((p.command &&& 0xF0).toNat ∈
        [Cmd.puback, Cmd.pubrec, Cmd.pubrel, Cmd.pubcomp, Cmd.unsuback] →
          h.protocol mosq = .mqtt5 ∨ p.remainingLength = 2) ∧
      ((p.command &&& 0xF0).toNat ∈ [Cmd.pingreq, Cmd.pingresp] → p.remainingLength = 0) ∧
      ((p.command &&& 0xF0).toNat = Cmd.disconnect →
        h.protocol mosq = .mqtt5 ∨ p.remainingLength = 0) := by
    unfold lengthRefused
    generalize (p.command &&& 0xF0).toNat = c
    simp only [Cmd.connect, Cmd.puback, Cmd.pubrec, Cmd.pubrel, Cmd.pubcomp, Cmd.unsuback,
      Cmd.pingreq, Cmd.pingresp, Cmd.disconnect, List.mem_cons, List.not_mem_nil, or_false]
    split_ifs with hconnect hack hping hdisconnect
    · subst hconnect
      simp
    · have : ¬ (c = 192 ∨ c = 208) ∧ c ≠ 224 := by omega
      simp only [hconnect, hack, this, decide_eq_false_iff_not, not_and_or]
      tauto
    · have : c ≠ 224 := by omega
      simp only [hconnect, hack, hping, this, decide_eq_false_iff_not]
      tauto
    · simp only [hdisconnect, decide_eq_false_iff_not, not_and_or]
      norm_num
    · simp only [hconnect, hack, hping, hdisconnect, false_implies, and_self]
  unfold sizeRefused
  rw [h.broker, Bool.true_and, Bool.or_eq_false_iff, hlength, decide_eq_false_iff_not]
  constructor
  · rintro ⟨⟨hconnect, hack, hping, hdisconnect⟩, hsize⟩
    exact ⟨hconnect, hack, hping, hdisconnect, by omega⟩
  · rintro ⟨hconnect, hack, hping, hdisconnect, hsize⟩
    exact ⟨⟨hconnect, hack, hping, hdisconnect⟩, by omega⟩

theorem receiveChecks_uniform : (receiveChecks h).Uniform := by
  intro mosq hzero byte
  have hstate : h.state mosq ≠ .new := by simpa [receiveChecks, wsCommandRefused] using hzero
  simp [receiveChecks, wsCommandRefused, hstate]

theorem readChecks_uniform : (readChecks h).Uniform := by
  intro mosq hzero byte
  have hstate : h.bridge mosq = false → h.state mosq ≠ .connected := by
    simpa [readChecks, commandRefused, h.broker] using hzero
  simp only [readChecks, commandRefused, h.broker]
  cases hb : h.bridge mosq with
  | true => rfl
  | false => simp [hstate hb]

theorem takesCommand_iff : TakesCommand h mosq command ↔ h.hasSock mosq = true ∧
    (readChecks h).command mosq command = false ∧ (receiveChecks h).command mosq command = false := by
  have hread : (readChecks h).command mosq command = false ↔ command &&& 0xF0 = 0x10 ∨
      h.state mosq ≠ .connected ∨ h.bridge mosq = true := by
    simp only [readChecks, commandRefused, h.broker]
    cases hb : h.bridge mosq with
    | true => simp
    | false => by_cases hs : h.state mosq = .connected <;> simp [hs]
  have hreceive : (receiveChecks h).command mosq command = false ↔ command &&& 0xF0 = 0x10 ∨
      h.state mosq ≠ .new := by
    simp only [receiveChecks, wsCommandRefused]
    by_cases hs : h.state mosq = .new <;> simp [hs]
  rw [hread, hreceive]
  constructor
  · rintro ⟨hsock, hconnect⟩
    exact ⟨hsock, by tauto, by tauto⟩
  · rintro ⟨hsock, hr, hw⟩
    exact ⟨hsock, by tauto⟩

/-! ### The headers of a packet that both take -/

/-- Nothing is refused and nothing handled: what is there waits. -/
theorem waits_of_settles (hsock : h.hasSock mosq = true) {header : Header}
    (hm : header ∈ headers command 0 0 s)
    (hs : Settles (readChecks h) h.toHost (.idle mosq handled) (.pending, handled) header) :
    header.Waits h mosq := by
  have hgone : (readChecks h).gone mosq = false := by simp [readChecks, hsock]
  cases header with
  | waiting => trivial
  | endless => exact absurd (congrArg Prod.fst hs) (by simp)
  | known c digits length rest =>
    cases hlength : (readChecks h).length mosq
        ((Conn.idle mosq handled).known c digits length).inPacket with
    | true =>
      rw [settles_refused hlength] at hs
      exact absurd (congrArg Prod.fst hs) (by simp)
    | false =>
      refine ⟨(sizeRefused_iff mosq _).mp hlength, ?_⟩
      by_contra hlong
      obtain ⟨packet, -, hp⟩ :=
        settles_whole hgone (headers_known hm).1 hlength (not_lt.mp hlong) hs
      exact handled_ne hp rfl

theorem settles_of_waits {k : Checks σ} (hk : k.Uniform) (hgone : k.gone mosq = false)
    (hcmd : k.command mosq command = false)
    (hlength : ∀ p, AllowsLength h mosq p.command p.remainingLength → k.length mosq p = false)
    {header : Header} (hm : header ∈ headers command 0 0 s) (hw : header.Waits h mosq) :
    Settles k h.toHost (.idle mosq handled) (.pending, handled) header := by
  cases header with
  | waiting => exact rfl
  | endless => exact hw.elim
  | known c digits length rest =>
    exact (settles_short hk hgone hcmd hm (hlength _ hw.1) hw.2).mpr rfl

/-- The packet is rejected for its length, if a reader looks at it. -/
theorem refused_of_settles {k : Checks σ} (hk : k.Uniform) (hgone : k.gone mosq = false)
    (hcmd : k.command mosq command = false) {header : Header}
    (hm : header ∈ headers command 0 0 s)
    (hs : Settles k h.toHost (.idle mosq handled) (.rejected, handled) header) :
    match header with
    | .waiting => False
    | .endless => True
    | .known c digits length _ =>
      k.length mosq ((Conn.idle mosq handled).known c digits length).inPacket = true := by
  cases header with
  | waiting => exact absurd (congrArg Prod.fst hs) (by simp)
  | endless => trivial
  | known c digits length rest =>
    by_contra hnot
    have hlength : k.length mosq
        ((Conn.idle mosq handled).known c digits length).inPacket = false := by simpa using hnot
    by_cases hshort : rest.length < length
    · have hv := (settles_short hk hgone hcmd hm hlength hshort).mp hs
      exact absurd (congrArg Prod.fst hv) (by simp)
    · obtain ⟨packet, -, hp⟩ :=
        settles_whole hgone (headers_known hm).1 hlength (not_lt.mp hshort) hs
      exact handled_ne hp rfl

/-- The callback rejects no packet for its length. -/
theorem endless_of_settles (hcmd : (receiveChecks h).command mosq command = false)
    (hall : ∀ header ∈ headers command 0 0 s,
      Settles (receiveChecks h) h.toHost (.idle mosq handled) (.rejected, handled) header) :
    ∀ header ∈ headers command 0 0 s, header = .endless := by
  intro header hm
  have href := refused_of_settles receiveChecks_uniform rfl hcmd hm (hall header hm)
  cases header with
  | waiting => exact href.elim
  | endless => rfl
  | known c digits length rest => exact absurd href (by simp [receiveChecks])

theorem settles_of_endless {k : Checks σ}
    (hall : ∀ header ∈ headers command 0 0 s, header = .endless) :
    ∀ header ∈ headers command 0 0 s,
      Settles k h.toHost (.idle mosq handled) (.rejected, handled) header := by
  intro header hm
  rw [hall header hm]
  exact rfl

/-! ### The whole stream -/

theorem alike_packet (htaken : TakesCommand h mosq command)
    (hreceive : ∀ header ∈ headers command 0 0 s,
      Settles (receiveChecks h) h.toHost (.idle mosq handled) verdict header)
    (hread : ∀ header ∈ headers command 0 0 s,
      Settles (readChecks h) h.toHost (.idle mosq handled) verdict header)
    (hstopped : command = 0 → ∃ packets, verdict.2 = handled ++ packets ∧
      ∀ packet ∈ packets, packet.command ≠ 0)
    (ih : ∀ (mosq : σ) (handled : List Incoming) (rest : Bytes), rest.length < s.length →
      Every (receiveChecks h) h.toHost false (.idle mosq handled) rest verdict →
      Every (readChecks h) h.toHost false (.idle mosq handled) rest verdict → Alike h mosq rest) :
    Alike h mosq (command :: s) := by
  obtain ⟨hsock, hcmd, hcmd'⟩ := takesCommand_iff.mp htaken
  have hgone : (readChecks h).gone mosq = false := by simp [readChecks, hsock]
  have hwaits : verdict = (.pending, handled) → Alike h mosq (command :: s) := by
    rintro rfl
    exact .waits htaken fun header hm => waits_of_settles hsock hm (hread header hm)
  obtain ⟨header, hm, hown⟩ := headers_own command 0 0 s
  cases header with
  | waiting => exact hwaits (hread _ hm)
  | endless =>
    have hv : verdict = (.rejected, handled) := hread _ hm
    subst hv
    exact .endless (endless_of_settles hcmd' hreceive)
  | known c digits length rest =>
    obtain rfl := hown c digits length rest rfl
    obtain ⟨hdigits, hrest, -⟩ := headers_known hm
    have hlength : (receiveChecks h).length mosq
        ((Conn.idle mosq handled).known c digits length).inPacket = false := rfl
    by_cases hshort : rest.length < length
    · exact hwaits ((settles_short receiveChecks_uniform rfl hcmd' hm hlength hshort).mp
        (hreceive _ hm))
    · have hlong : length ≤ rest.length := not_lt.mp hshort
      obtain ⟨packet, hpacket, hp⟩ := settles_whole rfl hdigits hlength hlong (hreceive _ hm)
      -- a reader that stops before every byte handles no packet with the command 0
      have hzero : c ≠ 0 := by
        intro hc
        obtain ⟨packets, hv, hall⟩ := hstopped hc
        rw [hv, List.prefix_append_right_inj] at hp
        exact hall packet (hp.subset (List.mem_singleton.mpr rfl)) (hpacket.trans hc)
      have hallowed : (readChecks h).length mosq
          ((Conn.idle mosq handled).known c digits length).inPacket = false := by
        by_contra hnot
        exact handled_ne hp ((settles_refused (by simpa using hnot)).mp (hread _ hm))
      have hsize := (sizeRefused_iff mosq _).mp hallowed
      obtain ⟨payload, tail, rfl, rfl⟩ : ∃ payload tail, rest = payload ++ tail ∧
          length = payload.length := ⟨rest.take length, rest.drop length,
            (List.take_append_drop _ _).symm, by rw [List.length_take]; omega⟩
      have hreceive' := (@known_whole _ _ _ (.idle mosq handled) _ rfl _ hzero digits payload tail
        hdigits).mp ((settles_allowed hlength).mp (hreceive _ hm))
      have hread' := (@known_whole _ _ _ (.idle mosq handled) _ hgone _ hzero digits payload tail
        hdigits).mp ((settles_allowed hallowed).mp (hread _ hm))
      by_cases hrc : (h.handlePacket ⟨c, payload.length, payload⟩ mosq).1 = Rc.success
      · have hrc' : (h.toHost.handlePacket ⟨c, payload.length, payload⟩
            (Conn.idle mosq handled).mosq).1 = Rc.success := hrc
        rw [if_pos hrc'] at hreceive' hread'
        refine .next hzero htaken hm hsize hrc (ih _ _ _ ?_ hreceive' hread')
        rw [List.length_append] at hrest
        omega
      · exact .failed hzero htaken hm hsize hrc

/-- One verdict, wherever the readers stop, says that the checks come to the same. -/
theorem alike_of_every (n : Nat) {s : Bytes} (hn : s.length < n)
    (hreceive : Every (receiveChecks h) h.toHost false (.idle mosq handled) s verdict)
    (hread : Every (readChecks h) h.toHost false (.idle mosq handled) s verdict) :
    Alike h mosq s := by
  induction n generalizing mosq handled s with
  | zero => exact absurd hn (Nat.not_lt_zero _)
  | succ n ih =>
    cases s with
    | nil => exact .nil
    | cons command s =>
      have hopen : ¬ (Conn.idle mosq handled).Complete := fun hf =>
        absurd hf.1 (by simp [Conn.idle, packetCleanup])
      have hlen : s.length < n := Nat.lt_of_succ_lt_succ hn
      cases hcmd' : (receiveChecks h).command mosq command with
      | true =>
        obtain rfl := (every_refused (.inr hcmd')).mp hreceive
        obtain ⟨hnew, hconnect⟩ : h.state mosq = .new ∧ command &&& 0xF0 ≠ 0x10 := by
          simpa [receiveChecks, wsCommandRefused] using hcmd'
        refine .refused hnew hconnect fun hsock header hm => ?_
        have hcmd : (readChecks h).command mosq command = false := by
          simp [readChecks, commandRefused, hnew]
        have hgone : (readChecks h).gone mosq = false := by simp [readChecks, hsock]
        have href := refused_of_settles readChecks_uniform hgone hcmd hm
          ((every_taken readChecks_uniform hgone hcmd).mp hread header hm)
        cases header with
        | waiting => exact href
        | endless => trivial
        | known c digits length rest =>
          intro hallowed
          have hlength := (sizeRefused_iff mosq
            ((Conn.idle mosq handled).known c digits length).inPacket).mpr hallowed
          exact absurd (hlength.symm.trans href) (by decide)
      | false =>
        have hreceive' := (every_taken receiveChecks_uniform rfl hcmd').mp hreceive
        by_cases htaken : TakesCommand h mosq command
        · obtain ⟨hsock, hcmd, -⟩ := takesCommand_iff.mp htaken
          have hgone : (readChecks h).gone mosq = false := by simp [readChecks, hsock]
          refine alike_packet htaken hreceive'
            ((every_taken readChecks_uniform hgone hcmd).mp hread) (fun _ => ?_)
            fun mosq handled rest hrest => ih (hrest.trans hlen)
          rw [← hread _ (reduceOption_stopping (command :: s))]
          exact scan_stopping false (command :: s) hopen
        · have hrefused : (readChecks h).gone mosq = true ∨
              (readChecks h).command mosq command = true := by
            by_contra hnot
            obtain ⟨hgone, hcmd⟩ := not_or.mp hnot
            exact htaken (takesCommand_iff.mpr ⟨by simpa [readChecks] using hgone,
              by simpa using hcmd, hcmd'⟩)
          obtain rfl := (every_refused hrefused).mp hread
          exact .endless (endless_of_settles hcmd' hreceive')

/-- And the other way round. -/
theorem every_of_alike {s : Bytes} (ha : Alike h mosq s) (handled : List Incoming) :
    ∃ verdict, Every (receiveChecks h) h.toHost false (.idle mosq handled) s verdict ∧
      Every (readChecks h) h.toHost false (.idle mosq handled) s verdict := by
  induction ha generalizing handled with
  | nil => exact ⟨_, every_nil.mpr rfl, every_nil.mpr rfl⟩
  | waits htaken hshort =>
    obtain ⟨hsock, hcmd, hcmd'⟩ := takesCommand_iff.mp htaken
    rename_i mosq command s
    have hgone : (readChecks h).gone mosq = false := by simp [readChecks, hsock]
    exact ⟨(.pending, handled),
      (every_taken receiveChecks_uniform rfl hcmd').mpr fun header hm =>
        settles_of_waits receiveChecks_uniform rfl hcmd' (fun _ _ => rfl) hm (hshort header hm),
      (every_taken readChecks_uniform hgone hcmd).mpr fun header hm =>
        settles_of_waits readChecks_uniform hgone hcmd (fun p => (sizeRefused_iff mosq p).mpr) hm
          (hshort header hm)⟩
  | endless hfifth =>
    rename_i mosq command s
    have hevery : ∀ k : Checks σ, k.Uniform →
        Every k h.toHost false (.idle mosq handled) (command :: s) (.rejected, handled) := by
      intro k hk
      by_cases hr : k.gone mosq = true ∨ k.command mosq command = true
      · exact (every_refused hr).mpr rfl
      · obtain ⟨hgone, hcmd⟩ := not_or.mp hr
        exact (every_taken hk (by simpa using hgone) (by simpa using hcmd)).mpr
          (settles_of_endless hfifth)
    exact ⟨_, hevery _ receiveChecks_uniform, hevery _ readChecks_uniform⟩
  | refused hnew hconnect hsize =>
    rename_i mosq command s
    have hcmd' : (receiveChecks h).command mosq command = true := by
      simpa [receiveChecks, wsCommandRefused, hnew] using hconnect
    refine ⟨(.rejected, handled), (every_refused (.inr hcmd')).mpr rfl, ?_⟩
    by_cases hsock : h.hasSock mosq = true
    · have hcmd : (readChecks h).command mosq command = false := by
        simp [readChecks, commandRefused, hnew]
      have hgone : (readChecks h).gone mosq = false := by simp [readChecks, hsock]
      refine (every_taken readChecks_uniform hgone hcmd).mpr fun header hm => ?_
      have href := hsize hsock header hm
      cases header with
      | waiting => exact href.elim
      | endless => exact rfl
      | known c digits length rest =>
        refine (settles_refused ?_).mpr rfl
        by_contra hnot
        have hallowed : sizeRefused h mosq
            ((Conn.idle mosq handled).known c digits length).inPacket = false := by
          simpa [readChecks] using hnot
        exact href ((sizeRefused_iff mosq _).mp hallowed)
    · exact (every_refused (.inl (by simpa [readChecks] using hsock))).mpr rfl
  | failed hzero htaken hwhole hallowed herror =>
    rename_i mosq command digits s payload rest
    obtain ⟨hsock, hcmd, hcmd'⟩ := takesCommand_iff.mp htaken
    have hgone : (readChecks h).gone mosq = false := by simp [readChecks, hsock]
    have hlength := (sizeRefused_iff mosq
      ((Conn.idle mosq handled).known command digits payload.length).inPacket).mpr hallowed
    refine ⟨(.failed, handled ++ [⟨command, payload.length, payload⟩]), ?_, ?_⟩
    · exact every_whole receiveChecks_uniform rfl hcmd' hzero hwhole rfl (if_neg herror ▸ rfl)
    · exact every_whole readChecks_uniform hgone hcmd hzero hwhole hlength (if_neg herror ▸ rfl)
  | next hzero htaken hwhole hallowed hok hafter ih =>
    rename_i mosq command digits s payload rest
    obtain ⟨hsock, hcmd, hcmd'⟩ := takesCommand_iff.mp htaken
    have hgone : (readChecks h).gone mosq = false := by simp [readChecks, hsock]
    have hlength := (sizeRefused_iff mosq
      ((Conn.idle mosq handled).known command digits payload.length).inPacket).mpr hallowed
    obtain ⟨verdict, hreceive, hread⟩ := ih (handled ++ [⟨command, payload.length, payload⟩])
    refine ⟨verdict, ?_, ?_⟩
    · refine every_whole receiveChecks_uniform rfl hcmd' hzero hwhole rfl ?_
      rw [if_pos hok]
      exact hreceive
    · refine every_whole readChecks_uniform hgone hcmd hzero hwhole hlength ?_
      rw [if_pos hok]
      exact hread

/-! ### Frames and reads for every way to stop -/

/-- Frames that end where the reader is to stop. -/
def framesOf : List (Option UInt8) → List Bytes
  | [] => [[]]
  | none :: t => [] :: framesOf t
  | some byte :: t => (framesOf t).modifyHead (byte :: ·)

def scriptOf (t : List (Option UInt8)) : List NetEvent :=
  t.map fun o => o.elim .again (.bytes · [])

theorem frameTokens_framesOf (t : List (Option UInt8)) :
    framesOf t ≠ [] ∧ frameTokens (framesOf t) = t ++ [none] := by
  induction t with
  | nil => exact ⟨by simp [framesOf], rfl⟩
  | cons o t ih =>
    obtain ⟨hne, htokens⟩ := ih
    obtain ⟨frame, frames, hf⟩ := List.exists_cons_of_ne_nil hne
    cases o with
    | none => exact ⟨by simp [framesOf], congrArg (none :: ·) htokens⟩
    | some byte =>
      rw [framesOf, hf, List.modifyHead_cons]
      rw [hf] at htokens
      exact ⟨List.cons_ne_nil _ _, congrArg (some byte :: ·) htokens⟩

theorem frameTokens_bytes (frames : List Bytes) :
    (frameTokens frames).reduceOption = frames.flatten := by
  induction frames with
  | nil => rfl
  | cons frame frames ih =>
    have htokens : frameTokens (frame :: frames) =
        frame.map some ++ none :: frameTokens frames := by
      simp [frameTokens]
    rw [htokens, List.reduceOption_append, reduceOption_map_some, List.reduceOption_cons_of_none,
      ih, List.flatten_cons]

theorem netTokens_bytes (net : List NetEvent) : (netTokens net).reduceOption = delivered net := by
  induction net with
  | nil => rfl
  | cons event net ih =>
    cases event with
    | again => exact ih
    | bytes first more =>
      rw [netTokens, List.reduceOption_append, reduceOption_map_some, ih, delivered,
        List.cons_append]

theorem netTokens_scriptOf (t : List (Option UInt8)) : netTokens (scriptOf t) = t := by
  induction t with
  | nil => rfl
  | cons o t ih =>
    cases o with
    | none => exact congrArg (none :: ·) ih
    | some byte => exact congrArg (some byte :: ·) ih

theorem scan_end {k : Checks σ} {h : Host σ} (begun : Bool) (conn : Conn σ)
    (t : List (Option UInt8)) : scan k h begun conn (t ++ [none]) = scan k h begun conn t := by
  induction t generalizing begun conn with
  | nil => rfl
  | cons o t ih =>
    cases o with
    | none => exact ih false conn
    | some byte => simp only [List.cons_append, scan, ih]

/-- The verdicts of the callback are those of `scan`. -/
theorem receives_every {stream : Bytes} :
    (∀ frames : List Bytes, frames.flatten = stream →
      receiveVerdict (callbackReceives h (WsConn.start mosq) frames) = verdict) ↔
    Every (receiveChecks h) h.toHost false (.idle mosq []) stream verdict := by
  have hscan := callbackReceives_scan (h := h) (c := WsConn.start mosq)
    ⟨rfl, by rintro rc ⟨⟩⟩
    fun hf => absurd hf.1 (by simp [WsConn.start, Conn.start, packetCleanup])
  constructor
  · intro hall t ht
    have htokens := (frameTokens_framesOf t).2
    have hbytes := hall (framesOf t) (by
      rw [← frameTokens_bytes, htokens, List.reduceOption_append, ht]
      exact List.append_nil _)
    rw [hscan, htokens, scan_end] at hbytes
    exact hbytes
  · intro he frames hf
    rw [hscan]
    exact he _ ((frameTokens_bytes frames).trans hf)

theorem reads_every {stream : Bytes} :
    (∀ (net : List NetEvent) (calls : Nat), delivered net = stream → scriptSize net ≤ calls →
      readVerdict (readCalls h.toHost calls (Conn.start mosq) net) = verdict) ↔
    Every (readChecks h) h.toHost false (.idle mosq []) stream verdict := by
  have hopen : ¬ (Conn.start mosq).Complete := fun hf =>
    absurd hf.1 (by simp [Conn.start, packetCleanup])
  constructor
  · intro hall t ht
    have hbytes := hall (scriptOf t) _ (by
      rw [← netTokens_bytes, netTokens_scriptOf, ht]) (Nat.le_refl _)
    rw [readCalls_scan _ hopen (Nat.le_refl _), netTokens_scriptOf] at hbytes
    exact hbytes
  · intro he net calls hd hcalls
    rw [readCalls_scan _ hopen hcalls]
    exact he _ ((netTokens_bytes net).trans hd)

/-- **The readers accept the same streams exactly when their checks come to the same** for
every packet, up to the first that is refused or whose handling fails. -/
theorem websocket_reader_agrees_iff (h : WsHost σ) (mosq : σ) (stream : Bytes) :
    ReadersAgree h mosq stream ↔ Alike h mosq stream := by
  constructor
  · intro hagree
    have hframes : [stream].flatten = stream := by simp
    have hnet := delivered_atOnce stream
    -- the verdict that all share
    have hreads := reads_every.mp fun net calls hd hcalls =>
      (hagree [stream] net calls hframes hd hcalls).symm
    have hreceives := receives_every.mp fun frames hf =>
      (hagree frames _ _ hf hnet (Nat.le_refl _)).trans
        (hagree [stream] _ _ hframes hnet (Nat.le_refl _)).symm
    exact alike_of_every _ (Nat.lt_succ_self _) hreceives hreads
  · intro halike frames net calls hf hd hcalls
    obtain ⟨verdict, hreceive, hread⟩ := every_of_alike halike []
    rw [receives_every.mpr hreceive frames hf, reads_every.mpr hread net calls hd hcalls]

end Agree

/-- An active client of a listener for MQTT 3.1.1, for which every packet is handled. -/
def WsHost.active : WsHost Unit where
  withBroker := true
  hasSock _ := true
  state _ := .active
  bridge _ := false
  protocol _ := .mqtt311
  maxPacketSize := 0
  sendDisconnect _ mosq := mosq
  handlePacket _ mosq := (Rc.success, mosq)
  hasOutPacket _ := false
  setDisconnectWs mosq := mosq
  doDisconnect mosq := mosq
  broker := rfl
  accepted _ := by decide

/-- A PINGREQ with a byte in it: `packet__read` finds it malformed, the callback passes it on. -/
theorem websocket_takes_long_pingreq : ¬ ReadersAgree WsHost.active () [0xC0, 1, 0] := by
  intro h
  exact absurd (h [[0xC0, 1, 0]] [.bytes 0xC0 [1, 0]] 4 rfl rfl (by decide)) (by decide)

end AdaptiveMqtt.Packet
