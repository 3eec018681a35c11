import AdaptiveMqtt.Packet.PropertyList

/-!
# Copies of properties

`mosquitto_property_copy_all` works on the records in memory, where a string without bytes
may be `NULL`: `packet__read_binary` and `mosquitto_property_add_string` leave it so. `strdup`
gets the pointer as it is, so that the copy fails on exactly these strings; binary data of
length zero is copied all the same, and so is a user property that was added with `""`.
-/

namespace AdaptiveMqtt.Packet

open Lib MqttProp

/-! ## The records -/

/-- `struct mqtt__string`. `v` is `NULL` or points to bytes. -/
structure MqttString where
  v : Option Bytes
  len : UInt16
  deriving DecidableEq, Repr

/-- The union of `struct mqtt5__property`, with the member that was written. -/
inductive UnionValue where
  | i8 (v : UInt8)
  | i16 (v : UInt16)
  | i32 (v : UInt32)
  | varint (v : Nat)
  | bin (v : MqttString)
  | s (v : MqttString)
  deriving DecidableEq, Repr

structure Mqtt5Property where
  identifier : Nat
  value : UnionValue
  name : MqttString
  clientGenerated : Bool
  deriving DecidableEq, Repr

namespace MqttString

/-- What `calloc` leaves. -/
def null : MqttString := ⟨none, 0⟩

/-- What `packet__read_binary` returns. -/
def read (data : Bytes) : MqttString :=
  if data.length = 0 then null else ⟨some data, UInt16.ofNat data.length⟩

/-- `mosquitto__strdup` of an argument, if it is not `NULL`. -/
def given : Option Bytes → MqttString
  | none => null
  | some value => ⟨some value, UInt16.ofNat value.length⟩

/-- The bytes and their number, `NULL` being no bytes. -/
def content (str : MqttString) : MqttString := ⟨some (str.v.getD []), str.len⟩

end MqttString

namespace UnionValue

/-- A member that was not written is zero. -/
def getI8 : UnionValue → UInt8
  | .i8 v => v
  | _ => 0

def getI16 : UnionValue → UInt16
  | .i16 v => v
  | _ => 0

def getI32 : UnionValue → UInt32
  | .i32 v => v
  | _ => 0

def getVarint : UnionValue → Nat
  | .varint v => v
  | _ => 0

def getBin : UnionValue → MqttString
  | .bin v => v
  | _ => .null

def getS : UnionValue → MqttString
  | .s v => v
  | _ => .null

def content : UnionValue → UnionValue
  | .bin v => .bin v.content
  | .s v => .s v.content
  | value => value

end UnionValue

/-- The identifier, the name and the value of a property. -/
def Mqtt5Property.content (p : Mqtt5Property) : Nat × UnionValue × MqttString :=
  (p.identifier, p.value.content, p.name.content)

/-! ## Where lists come from -/

/-- The record that `property__read` fills. -/
def recordOf (p : Property) : Mqtt5Property :=
  match p.value with
  | .byte v => ⟨p.identifier, .i8 v, .null, false⟩
  | .int16 v => ⟨p.identifier, .i16 v, .null, false⟩
  | .int32 v => ⟨p.identifier, .i32 v, .null, false⟩
  | .varint v => ⟨p.identifier, .varint v, .null, false⟩
  | .binary v => ⟨p.identifier, .bin (.read v), .null, false⟩
  | .string v => ⟨p.identifier, .s (.read v), .null, false⟩
  | .stringPair name v => ⟨p.identifier, .s (.read v), .read name, false⟩

namespace AddCall

/-- The record that a call appends. `mosquitto_property_add_string` also leaves an empty
string `NULL`, `mosquitto_property_add_string_pair` does not. -/
def stored : AddCall → Mqtt5Property
  | byte identifier value => ⟨identifier, .i8 value, .null, true⟩
  | int16 identifier value => ⟨identifier, .i16 value, .null, true⟩
  | int32 identifier value => ⟨identifier, .i32 value, .null, true⟩
  | varint identifier value => ⟨identifier, .varint value.toNat, .null, true⟩
  | binary identifier value len =>
    ⟨identifier, .bin (if len ≠ 0 then ⟨some (value.take len.toNat), len⟩ else .null), .null, true⟩
  | string identifier value =>
    ⟨identifier, .s (if (value.getD []).length > 0 then .given value else .null), .null, true⟩
  | stringPair identifier name value => ⟨identifier, .s (.given value), .given name, true⟩

/-- The strings of a call are C strings. -/
def Terminated : AddCall → Prop
  | string _ value => ∀ str ∈ value, 0 ∉ str
  | stringPair _ name value => (∀ str ∈ name, 0 ∉ str) ∧ ∀ str ∈ value, 0 ∉ str
  | _ => True

/-- A call on records: the checks are those of `run`. -/
def exec (proplist : List Mqtt5Property) (call : AddCall) : Rc × List Mqtt5Property :=
  if (call.run []).1 = Rc.success then (Rc.success, proplist ++ [call.stored])
  else ((call.run []).1, proplist)

end AddCall

/-- A list that was read from a packet or built with the API. -/
inductive Made : List Mqtt5Property → Prop where
  | nil : Made []
  | read {command : Nat} {s rest : Bytes} {props : List Property} :
      propertyReadAll command s = .ok (props, rest) → Made (props.map recordOf)
  | add {proplist : List Mqtt5Property} {call : AddCall} :
      Made proplist → call.Terminated → Made (call.exec proplist).2

/-! ## The copy -/

/-- `strdup`, which copies up to the NUL. A copy of `NULL` fails. -/
def strdup (str : Option Bytes) : Option Bytes := str.map (·.takeWhile (· ≠ 0))

def copyProperty (src : Mqtt5Property) : Except Rc Mqtt5Property :=
  match src.identifier with
  | payloadFormatIndicator | requestProblemInformation | requestResponseInformation
  | maximumQos | retainAvailable | wildcardSubAvailable | subscriptionIdAvailable
  | sharedSubAvailable => .ok ⟨src.identifier, .i8 src.value.getI8, .null, false⟩
  | serverKeepAlive | receiveMaximum | topicAliasMaximum | topicAlias =>
    .ok ⟨src.identifier, .i16 src.value.getI16, .null, false⟩
  | messageExpiryInterval | sessionExpiryInterval | willDelayInterval | maximumPacketSize =>
    .ok ⟨src.identifier, .i32 src.value.getI32, .null, false⟩
  | subscriptionIdentifier => .ok ⟨src.identifier, .varint src.value.getVarint, .null, false⟩
  | contentType | responseTopic | assignedClientIdentifier | authenticationMethod
  | responseInformation | serverReference | reasonString =>
    match strdup src.value.getS.v with
    | none => .error Rc.nomem
    | some v => .ok ⟨src.identifier, .s ⟨some v, src.value.getS.len⟩, .null, false⟩
  | authenticationData | correlationData =>
    let v := (src.value.getBin.v.getD []).take src.value.getBin.len.toNat
    .ok ⟨src.identifier, .bin ⟨some v, src.value.getBin.len⟩, .null, false⟩
  | userProperty =>
    match strdup src.value.getS.v with
    | none => .error Rc.nomem
    | some v =>
      match strdup src.name.v with
      | none => .error Rc.nomem
      | some name =>
        .ok ⟨src.identifier, .s ⟨some v, src.value.getS.len⟩, ⟨some name, src.name.len⟩, false⟩
  | _ => .error Rc.inval

def copyLoop : List Mqtt5Property → Except Rc (List Mqtt5Property)
  | [] => .ok []
  | src :: rest => do
    let pnew ← copyProperty src
    let copies ← copyLoop rest
    pure (pnew :: copies)

/-- `mosquitto_property_copy_all`, with what `dest` points to if it is not `NULL`. An empty
list leaves it as it is. -/
def mosquittoPropertyCopyAll (dest : Option (List Mqtt5Property)) (src : List Mqtt5Property) :
    Rc × Option (List Mqtt5Property) :=
  if src = [] then (Rc.success, dest)
  else
    match dest with
    | none => (Rc.inval, none)
    | some _ =>
      match copyLoop src with
      | .ok copies => (Rc.success, some copies)
      | .error rc => (rc, some [])

/-! ## Strings without NUL -/

section Utf8

theorem codeRest_nonzero {n codepoint codepoint' : Nat} {s : Bytes}
    (h : codeRest n codepoint s = some codepoint') : ∀ b ∈ s.take n, b ≠ 0 := by
  induction n generalizing codepoint s with
  | zero =>
    intro b hb
    rw [List.take_zero] at hb
    cases hb
  | succ n ih =>
    rw [codeRest] at h
    split at h
    · cases h
    · rename_i hcont
      cases s with
      | nil =>
        intro b hb
        cases hb
      | cons b s =>
        rw [List.take_succ_cons]
        refine List.forall_mem_cons.mpr ⟨?_, ih h⟩
        rintro rfl
        have hzero : (0 : UInt8) &&& 0xC0 ≠ 0x80 := by decide
        exact hcont hzero

theorem codeStart_nonzero {b : UInt8} {codelen codepoint : Nat}
    (h : codeStart b = some (codelen, codepoint)) : b ≠ 0 ∧ 0 < codelen := by
  unfold codeStart at h
  split_ifs at h <;> cases h <;> exact ⟨‹_›, by decide⟩

/-- The bytes that `mosquitto_validate_utf8` accepts have no NUL among them. -/
theorem utf8Loop_nonzero {fuel left : Nat} {s : Bytes} (h : utf8Loop fuel left s = Rc.success) :
    ∀ b ∈ s.take left, b ≠ 0 := by
  induction fuel generalizing left s with
  | zero =>
    cases left with
    | zero => simp
    | succ left => cases h
  | succ fuel ih =>
    cases left with
    | zero => simp
    | succ left =>
      rw [utf8Loop] at h
      split at h
      · cases h
      · rename_i codelen codepoint hstart
        obtain ⟨hhead, hpos⟩ := codeStart_nonzero hstart
        split at h
        · cases h
        · split at h
          · cases h
          · rename_i hrest
            split at h
            · have htail := ih h
              have hcode := codeRest_nonzero hrest
              -- the head, its continuation bytes, and what the next turns check
              cases s with
              | nil => simp
              | cons b s =>
                obtain ⟨k, rfl⟩ : ∃ k, codelen = k + 1 := ⟨codelen - 1, by omega⟩
                rw [List.take_succ_cons]
                refine List.forall_mem_cons.mpr ⟨hhead, fun x hx => ?_⟩
                have hsplit : x ∈ s.take (k + (left - k)) :=
                  List.take_subset_take_left s (by omega) hx
                rw [List.take_add, List.mem_append] at hsplit
                rcases hsplit with hx | hx
                · exact hcode x hx
                · refine htail x ?_
                  rw [List.drop_succ_cons, Nat.add_sub_add_right]
                  exact hx
            · cases h

theorem utf8_nonzero {str : Bytes} (h : Utf8 str) : 0 ∉ str := by
  unfold Utf8 mosquittoValidateUtf8 at h
  split at h
  · cases h
  · have hall := utf8Loop_nonzero h
    rw [Int.toNat_natCast, List.take_length] at hall
    exact fun hmem => hall 0 hmem rfl

end Utf8

/-! ## Records as they are made -/

/-- A record as the readers and the API leave it: the member of its type is written, strings
have no NUL and binary data is as long as it says. -/
inductive Formed : Mqtt5Property → Prop where
  | byte {identifier v g} : propType identifier = some .byte →
      Formed ⟨identifier, .i8 v, .null, g⟩
  | int16 {identifier v g} : propType identifier = some .int16 →
      Formed ⟨identifier, .i16 v, .null, g⟩
  | int32 {identifier v g} : propType identifier = some .int32 →
      Formed ⟨identifier, .i32 v, .null, g⟩
  | varint {identifier v g} : propType identifier = some .varint →
      Formed ⟨identifier, .varint v, .null, g⟩
  | binary {identifier v g} : propType identifier = some .binary →
      (v.v.getD []).length ≤ v.len.toNat → Formed ⟨identifier, .bin v, .null, g⟩
  | string {identifier v g} : propType identifier = some .string →
      0 ∉ v.v.getD [] → Formed ⟨identifier, .s v, .null, g⟩
  | stringPair {identifier v name g} : propType identifier = some .stringPair →
      0 ∉ v.v.getD [] → 0 ∉ name.v.getD [] → Formed ⟨identifier, .s v, name, g⟩

section Formed

variable {p q : Mqtt5Property} {src dest : List Mqtt5Property} {str : Bytes}

theorem read_nonzero (h : Utf8 str) : 0 ∉ (MqttString.read str).v.getD [] := by
  unfold MqttString.read
  split
  · exact List.not_mem_nil
  · exact utf8_nonzero h

theorem given_nonzero {value : Option Bytes} (h : ∀ str ∈ value, 0 ∉ str) :
    0 ∉ (MqttString.given value).v.getD [] := by
  cases value with
  | none => exact List.not_mem_nil
  | some str => exact h str rfl

theorem formed_read {p : Property} (h : p.Readable) : Formed (recordOf p) := by
  obtain ⟨identifier, value⟩ := p
  obtain ⟨htype, hvalue⟩ := h
  cases value with
  | byte v => exact .byte htype
  | int16 v => exact .int16 htype
  | int32 v => exact .int32 htype
  | varint v => exact .varint htype
  | binary v =>
    refine .binary htype ?_
    have hlen : v.length ≤ 65535 := hvalue
    unfold MqttString.read
    split
    · exact Nat.zero_le _
    · show v.length ≤ (UInt16.ofNat v.length).toNat
      rw [UInt16.toNat_ofNat', Nat.mod_eq_of_lt (by omega)]
  | string v => exact .string htype (read_nonzero hvalue.2)
  | stringPair name v => exact .stringPair htype (read_nonzero hvalue.2.2) (read_nonzero hvalue.1.2)

theorem formed_add {call : AddCall} (h : (call.run []).1 = Rc.success) (hc : call.Terminated) :
    Formed call.stored := by
  have htype : call.Sendable → propType call.passed.identifier = some call.passed.value.type := by
    intro hs
    obtain ⟨p, -, hp⟩ := AddCall.run_success h
    exact (hp hs).2.1
  cases call with
  | byte identifier value => exact .byte (htype trivial)
  | int16 identifier value => exact .int16 (htype trivial)
  | int32 identifier value => exact .int32 (htype trivial)
  | varint identifier value => exact .varint (htype trivial)
  | binary identifier value len =>
    refine .binary (htype trivial) ?_
    split
    · show (value.take len.toNat).length ≤ len.toNat
      rw [List.length_take]
      omega
    · exact Nat.zero_le _
  | string identifier value =>
    -- the identifier would be accepted with any string
    have hnone : ((AddCall.string identifier none).run []).1 = Rc.success := by
      simp only [AddCall.run, mosquittoPropertyAddString] at h ⊢
      split at h
      · cases h
      · split at h
        · cases h
        · rename_i hid
          rw [if_neg (by simp), if_neg hid]
    obtain ⟨p, -, hp⟩ := AddCall.run_success hnone
    refine .string (hp (Nat.zero_le _)).2.1 ?_
    split
    · exact given_nonzero hc
    · exact List.not_mem_nil
  | stringPair identifier name value =>
    have hid : identifier = userProperty := by
      by_contra hid
      simp only [AddCall.run, mosquittoPropertyAddStringPair] at h
      rw [if_pos hid] at h
      cases h
    subst hid
    exact .stringPair rfl (given_nonzero hc.2) (given_nonzero hc.1)

theorem formed_made (h : Made src) : ∀ p ∈ src, Formed p := by
  induction h with
  | nil => exact fun p hp => nomatch hp
  | read hread =>
    obtain ⟨-, -, hall, -⟩ := propertyReadAll_sound hread
    intro p hp
    obtain ⟨property, hmem, rfl⟩ := List.mem_map.mp hp
    exact formed_read (hall property hmem)
  | add _ hc ih =>
    unfold AddCall.exec
    split
    · rename_i hrun
      intro p hp
      rcases List.mem_append.mp hp with hp | hp
      · exact ih p hp
      · rw [List.mem_singleton.mp hp]
        exact formed_add hrun hc
    · exact ih

/-! ## What can be copied -/

/-- The strings that go to `strdup` are there. -/
def Mqtt5Property.Duplicable (p : Mqtt5Property) : Prop :=
  match propType p.identifier with
  | some .string => p.value.getS.v ≠ none
  | some .stringPair => p.value.getS.v ≠ none ∧ p.name.v ≠ none
  | _ => True

/-- A turn of the loop by the type of the property. -/
def copyValue (src : Mqtt5Property) : PropType → Except Rc Mqtt5Property
  | .byte => .ok ⟨src.identifier, .i8 src.value.getI8, .null, false⟩
  | .int16 => .ok ⟨src.identifier, .i16 src.value.getI16, .null, false⟩
  | .int32 => .ok ⟨src.identifier, .i32 src.value.getI32, .null, false⟩
  | .varint => .ok ⟨src.identifier, .varint src.value.getVarint, .null, false⟩
  | .string =>
    match strdup src.value.getS.v with
    | none => .error Rc.nomem
    | some v => .ok ⟨src.identifier, .s ⟨some v, src.value.getS.len⟩, .null, false⟩
  | .binary =>
    let v := (src.value.getBin.v.getD []).take src.value.getBin.len.toNat
    .ok ⟨src.identifier, .bin ⟨some v, src.value.getBin.len⟩, .null, false⟩
  | .stringPair =>
    match strdup src.value.getS.v with
    | none => .error Rc.nomem
    | some v =>
      match strdup src.name.v with
      | none => .error Rc.nomem
      | some name =>
        .ok ⟨src.identifier, .s ⟨some v, src.value.getS.len⟩, ⟨some name, src.name.len⟩, false⟩

/-- **Copying follows the table.** -/
theorem copyProperty_eq (p : Mqtt5Property) :
    copyProperty p = (propType p.identifier).elim (.error Rc.inval) (copyValue p) := by
  obtain ⟨identifier, value, name, g⟩ := p
  unfold copyProperty
  simp only
  split <;> simp [propType, copyValue]

theorem copyProperty_typed {t : PropType} (h : propType p.identifier = some t) :
    copyProperty p = copyValue p t := by
  rw [copyProperty_eq, h, Option.elim_some]

theorem strdup_nonzero {v : Option Bytes} (h : 0 ∉ v.getD []) : strdup v = v := by
  cases v with
  | none => rfl
  | some str =>
    rw [strdup, Option.map_some, List.takeWhile_eq_self_iff.mpr]
    intro b hb
    exact decide_eq_true fun h0 => h (h0 ▸ hb)

/-- A record that was made is copied if its strings are there, and the copy has its content. -/
theorem formed_copy (h : Formed p) (hd : p.Duplicable) :
    ∃ q, copyProperty p = .ok q ∧ q.content = p.content := by
  unfold Mqtt5Property.Duplicable at hd
  cases h with
  | byte htype =>
    exact ⟨⟨_, .i8 _, .null, false⟩, (copyProperty_typed htype).trans rfl, rfl⟩
  | int16 htype =>
    exact ⟨⟨_, .i16 _, .null, false⟩, (copyProperty_typed htype).trans rfl, rfl⟩
  | int32 htype =>
    exact ⟨⟨_, .i32 _, .null, false⟩, (copyProperty_typed htype).trans rfl, rfl⟩
  | varint htype =>
    exact ⟨⟨_, .varint _, .null, false⟩, (copyProperty_typed htype).trans rfl, rfl⟩
  | @binary identifier v g htype hlen =>
    have htake := List.take_of_length_le hlen
    refine ⟨⟨identifier, .bin ⟨some (v.v.getD []), v.len⟩, .null, false⟩, ?_, rfl⟩
    rw [copyProperty_typed htype]
    simp only [copyValue, UnionValue.getBin, htake]
  | @string identifier v g htype hzero =>
    rw [copyProperty_typed htype]
    rw [htype] at hd
    obtain ⟨str, hstr⟩ := Option.ne_none_iff_exists'.mp hd
    simp only [UnionValue.getS] at hstr
    have hdup := (strdup_nonzero hzero).trans hstr
    refine ⟨⟨identifier, .s ⟨some str, v.len⟩, .null, false⟩, ?_, ?_⟩
    · simp only [copyValue, UnionValue.getS, hdup]
    · simp [Mqtt5Property.content, UnionValue.content, MqttString.content, hstr]
  | @stringPair identifier v name g htype hzero hname =>
    rw [copyProperty_typed htype]
    rw [htype] at hd
    obtain ⟨str, hstr⟩ := Option.ne_none_iff_exists'.mp hd.1
    obtain ⟨n, hn⟩ := Option.ne_none_iff_exists'.mp hd.2
    simp only [UnionValue.getS] at hstr hn
    have hdup := (strdup_nonzero hzero).trans hstr
    have hdupn := (strdup_nonzero hname).trans hn
    refine ⟨⟨identifier, .s ⟨some str, v.len⟩, ⟨some n, name.len⟩, false⟩, ?_, ?_⟩
    · simp only [copyValue, UnionValue.getS, hdup, hdupn]
    · simp [Mqtt5Property.content, UnionValue.content, MqttString.content, hstr, hn]

theorem strdup_none : strdup none = none := rfl

/-- What is copied has its strings. -/
theorem duplicable_of_copy (h : copyProperty p = .ok q) : p.Duplicable := by
  unfold Mqtt5Property.Duplicable
  split
  · rename_i htype
    intro hnone
    rw [copyProperty_typed htype] at h
    simp only [copyValue, hnone, strdup_none] at h
    cases h
  · rename_i htype
    rw [copyProperty_typed htype] at h
    refine ⟨fun hnone => ?_, fun hnone => ?_⟩
    · simp only [copyValue, hnone, strdup_none] at h
      cases h
    · simp only [copyValue, hnone, strdup_none] at h
      split at h
      · cases h
      · cases h
  · trivial

theorem copyLoop_cons {copies : List Mqtt5Property} (h : copyLoop (p :: src) = .ok copies) :
    ∃ q rest, copyProperty p = .ok q ∧ copyLoop src = .ok rest ∧ copies = q :: rest := by
  rw [copyLoop] at h
  cases hq : copyProperty p with
  | error rc =>
    rw [hq] at h
    cases h
  | ok q =>
    cases hrest : copyLoop src with
    | error rc =>
      rw [hq, hrest] at h
      cases h
    | ok rest =>
      rw [hq, hrest] at h
      cases h
      exact ⟨q, rest, rfl, rfl, rfl⟩

/-- The loop gets through exactly the lists whose strings are all there. -/
theorem copyLoop_iff (hf : ∀ p ∈ src, Formed p) :
    (∃ copies, copyLoop src = .ok copies ∧
      copies.map Mqtt5Property.content = src.map Mqtt5Property.content) ↔
    ∀ p ∈ src, p.Duplicable := by
  induction src with
  | nil => exact ⟨fun _ p hp => (nomatch hp), fun _ => ⟨[], rfl, rfl⟩⟩
  | cons p src ih =>
    obtain ⟨hp, hf⟩ := List.forall_mem_cons.mp hf
    rw [List.forall_mem_cons, ← ih hf]
    constructor
    · rintro ⟨copies, hcopies, hcontent⟩
      obtain ⟨q, rest, hq, hrest, rfl⟩ := copyLoop_cons hcopies
      exact ⟨duplicable_of_copy hq, rest, hrest, (List.cons.inj hcontent).2⟩
    · rintro ⟨hd, rest, hrest, hcontent⟩
      obtain ⟨q, hq, hqp⟩ := formed_copy hp hd
      refine ⟨q :: rest, ?_, ?_⟩
      · rw [copyLoop, hq, hrest]
        rfl
      · rw [List.map_cons, List.map_cons, hqp, hcontent]

/-- **A list is copied exactly if no string of it is `NULL`**; `*dest` is only set for a list
that is not empty. -/
theorem property_copy_iff (dest : List Mqtt5Property) (h : Made src) :
    (∃ copies, mosquittoPropertyCopyAll (some dest) src = (Rc.success, some copies) ∧
      copies.map Mqtt5Property.content = src.map Mqtt5Property.content) ↔
    (src = [] → dest = []) ∧ ∀ p ∈ src, p.Duplicable := by
  rw [← copyLoop_iff (formed_made h)]
  unfold mosquittoPropertyCopyAll
  by_cases hnil : src = []
  · subst hnil
    rw [if_pos rfl]
    constructor
    · rintro ⟨copies, hcopies, hcontent⟩
      cases hcopies
      exact ⟨fun _ => List.map_eq_nil_iff.mp hcontent, [], rfl, rfl⟩
    · rintro ⟨hdest, -⟩
      exact ⟨dest, rfl, by rw [hdest rfl]⟩
  · rw [if_neg hnil]
    constructor
    · rintro ⟨copies, hcopies, hcontent⟩
      refine ⟨fun h => absurd h hnil, ?_⟩
      cases hloop : copyLoop src with
      | error rc =>
        -- `*dest` was freed, and a copy would not be empty
        rw [hloop] at hcopies
        have hempty : [] = copies := Option.some.inj (Prod.mk.inj hcopies).2
        subst hempty
        exact absurd (List.map_eq_nil_iff.mp hcontent.symm) hnil
      | ok copies' =>
        rw [hloop] at hcopies
        cases hcopies
        exact ⟨copies, rfl, hcontent⟩
    · rintro ⟨-, copies, hloop, hcontent⟩
      exact ⟨copies, by rw [hloop], hcontent⟩

/-- A content type and a user property with an empty value, from the API. -/
theorem property_copy_added :
    let src := [(AddCall.string contentType (some (ascii "a"))).stored,
      (AddCall.stringPair userProperty (some (ascii "n")) (some [])).stored]
    ∃ copies, mosquittoPropertyCopyAll (some []) src = (Rc.success, some copies) ∧
      copies.map Mqtt5Property.content = src.map Mqtt5Property.content := by
  have hfirst : (AddCall.string contentType (some (ascii "a"))).Terminated := by
    rintro str ⟨⟩
    decide
  have hsecond : (AddCall.stringPair userProperty (some (ascii "n")) (some [])).Terminated := by
    refine ⟨?_, ?_⟩
    · rintro str ⟨⟩
      decide
    · rintro str ⟨⟩
      decide
  refine (property_copy_iff [] (Made.add (Made.add Made.nil hfirst) hsecond)).mpr ⟨fun _ => rfl, ?_⟩
  intro p hp
  rcases List.mem_pair.mp hp with rfl | rfl
  · exact Option.some_ne_none _
  · exact ⟨Option.some_ne_none _, Option.some_ne_none _⟩

end Formed

/-- **A content type of length zero that a PUBLISH carries cannot be copied.** -/
theorem empty_string_not_copied :
    let props : List Property := [⟨contentType, .string []⟩]
    propertyReadAll Cmd.publish [3, 3, 0, 0] = .ok (props, []) ∧
      mosquittoPropertyCopyAll (some []) (props.map recordOf) = (Rc.nomem, some []) :=
  ⟨by decide, by decide⟩

end AdaptiveMqtt.Packet
