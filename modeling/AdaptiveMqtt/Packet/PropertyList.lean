import AdaptiveMqtt.Packet.Property

/-!
# Property lists

The list of a packet: `property__write_all` and `property__read_all` are inverse to each
other on lists of readable properties of less than 2^28 bytes (`property_roundtrip`), and
what the functions of the API add to a list can be sent exactly if every string has at most
65535 bytes, the value of every user property is valid UTF-8, and the list is that short
(`added_is_sent_iff`).
-/

namespace AdaptiveMqtt.Packet

open Lib Reader Writer MqttProp

def propertiesBytes (props : List Property) : Bytes := props.flatMap Property.bytes

@[simp] theorem propertiesBytes_cons (p : Property) (props : List Property) :
    propertiesBytes (p :: props) = p.bytes ++ propertiesBytes props := List.flatMap_cons

theorem propertiesBytes_append (props props' : List Property) :
    propertiesBytes (props ++ props') = propertiesBytes props ++ propertiesBytes props' :=
  List.flatMap_append

theorem bytes_length_pos (p : Property) : 0 < p.bytes.length := by
  rw [Property.bytes, List.length_cons]
  omega

theorem propertyGetLengthAll_eq {props : List Property} (h : ∀ p ∈ props, p.Readable) :
    propertyGetLengthAll props = (propertiesBytes props).length % 2 ^ 32 := by
  have hfold : ∀ (l : List Property) (len : Nat), (∀ p ∈ l, p.Readable) →
      l.foldl (fun len p => (len + propertyGetLength p) % 2 ^ 32) (len % 2 ^ 32) =
        (len + (propertiesBytes l).length) % 2 ^ 32 := by
    intro l
    induction l with
    | nil => exact fun _ _ => rfl
    | cons p l ih =>
      intro len hl
      obtain ⟨hp, hl⟩ := List.forall_mem_cons.mp hl
      have hstep : (len % 2 ^ 32 + propertyGetLength p) % 2 ^ 32 =
          (len + p.bytes.length) % 2 ^ 32 := by
        rw [propertyGetLength_readable hp]
        omega
      rw [List.foldl_cons, hstep, ih _ hl, propertiesBytes_cons, List.length_append,
        Nat.add_assoc]
  have := hfold props 0 h
  rwa [Nat.zero_add] at this

theorem sum_propertyGetLength {props : List Property} (h : ∀ p ∈ props, p.Readable) :
    (props.map propertyGetLength).sum = (propertiesBytes props).length := by
  rw [propertiesBytes, List.length_flatMap]
  exact congrArg List.sum (List.map_congr_left fun p hp => propertyGetLength_readable (h p hp))

theorem propertyWriteAll_wrapped {props : List Property} (h : ∀ p ∈ props, p.Readable)
    (hlen : (propertiesBytes props).length % 2 ^ 32 < 2 ^ 28) :
    propertyWriteAll props true = emit .abort
      (varintBytes ((propertiesBytes props).length % 2 ^ 32) ++ propertiesBytes props) := by
  unfold propertyWriteAll
  rw [if_pos rfl, propertyGetLengthAll_eq h, packetWriteVarint_eq hlen,
    forM_emit fun p hp => propertyWrite_readable (h p hp)]
  exact emit_append _ _

theorem propertyWriteAll_bare {props : List Property} (h : ∀ p ∈ props, p.Readable) :
    propertyWriteAll props false = emit .abort (propertiesBytes props) := by
  unfold propertyWriteAll
  rw [if_neg (by decide), forM_emit fun p hp => propertyWrite_readable (h p hp)]
  rfl

theorem propertyWriteAll_eq {props : List Property} (h : ∀ p ∈ props, p.Readable)
    (hlen : (propertiesBytes props).length < 2 ^ 28) :
    propertyWriteAll props true =
      emit .abort (varintBytes (propertiesBytes props).length ++ propertiesBytes props) := by
  have hmod : (propertiesBytes props).length % 2 ^ 32 = (propertiesBytes props).length :=
    Nat.mod_eq_of_lt (by omega)
  have hwrite := propertyWriteAll_wrapped h (by omega)
  rwa [hmod] at hwrite

/-! ## Reading the list -/

theorem propertyReadLoop_sound : ∀ {fuel : Nat} {proplen : UInt32} {s rest : Bytes}
    {props : List Property}, propertyReadLoop fuel proplen s = .ok (props, rest) →
    (∀ p ∈ props, p.Readable) ∧ s = propertiesBytes props ++ rest ∧
      proplen = UInt32.ofNat (propertiesBytes props).length := by
  intro fuel
  induction fuel with
  | zero => exact fun h => nomatch h
  | succ fuel ih =>
    intro proplen s rest props h
    rw [propertyReadLoop] at h
    split at h
    · simp only [bind_eq_ok, pure_eq_ok] at h
      obtain ⟨⟨p, proplen'⟩, s', hp, props', s'', hloop, rfl, rfl⟩ := h
      obtain ⟨hread, rfl, rfl⟩ := propertyRead_eq_ok.mp hp
      obtain ⟨hall, rfl, hlen⟩ := ih hloop
      refine ⟨List.forall_mem_cons.mpr ⟨hread, hall⟩, ?_, ?_⟩
      · rw [propertiesBytes_cons, List.append_assoc]
      · rw [propertiesBytes_cons, List.length_append, UInt32.ofNat_add, ← hlen]
        grind
    · rename_i hz
      obtain ⟨rfl, rfl⟩ := pure_eq_ok.mp h
      refine ⟨fun p hp => (nomatch hp), rfl, ?_⟩
      apply UInt32.toNat_inj.mp
      have : ¬ (0 : UInt32) < proplen := hz
      rw [UInt32.lt_iff_toNat_lt] at this
      show proplen.toNat = 0
      simpa using this

theorem propertyReadLoop_complete {rest : Bytes} : ∀ {fuel : Nat} {props : List Property},
    (∀ p ∈ props, p.Readable) → (propertiesBytes props).length < 2 ^ 32 → props.length < fuel →
    propertyReadLoop fuel (UInt32.ofNat (propertiesBytes props).length)
      (propertiesBytes props ++ rest) = .ok (props, rest) := by
  intro fuel
  induction fuel with
  | zero => exact fun _ _ h => absurd h (Nat.not_lt_zero _)
  | succ fuel ih =>
    intro props hall hlen hfuel
    rw [propertyReadLoop]
    cases props with
    | nil => rfl
    | cons p props =>
      obtain ⟨hp, hall⟩ := List.forall_mem_cons.mp hall
      rw [propertiesBytes_cons, List.length_append] at hlen ⊢
      have hpos := bytes_length_pos p
      generalize hproplen : UInt32.ofNat (p.bytes.length + (propertiesBytes props).length) = proplen
      have hgt : proplen > 0 := by
        show (0 : UInt32) < proplen
        rw [UInt32.lt_iff_toNat_lt, ← hproplen, UInt32.toNat_ofNat', Nat.mod_eq_of_lt hlen]
        simp only [UInt32.toNat_zero]
        omega
      have hleft : proplen - UInt32.ofNat p.bytes.length =
          UInt32.ofNat (propertiesBytes props).length := by
        rw [← hproplen, UInt32.ofNat_add]
        grind
      rw [if_pos hgt, List.append_assoc,
        bind_of_ok (propertyRead_eq_ok.mpr ⟨hp, hleft.symm, rfl⟩)]
      have hloop := ih hall (by omega) (Nat.lt_of_succ_lt_succ hfuel)
      exact (bind_of_ok hloop).trans rfl

theorem length_le_propertiesBytes (props : List Property) :
    props.length ≤ (propertiesBytes props).length := by
  induction props with
  | nil => exact Nat.le_refl 0
  | cons p props ih =>
    have := bytes_length_pos p
    rw [propertiesBytes_cons, List.length_append, List.length_cons]
    omega

/-- Whatever `property__read_all` returns is readable and was taken from the buffer, with
the announced length up to 2^32. -/
theorem propertyReadAll_sound {command : Nat} {s rest : Bytes} {props : List Property}
    (h : propertyReadAll command s = .ok (props, rest)) :
    ∃ proplen, proplen < 2 ^ 28 ∧ (∀ p ∈ props, p.Readable) ∧
      mosquittoPropertyCheckAll command props = Rc.success ∧
      s = varintBytes proplen ++ propertiesBytes props ++ rest ∧
      proplen = (propertiesBytes props).length % 2 ^ 32 := by
  unfold propertyReadAll at h
  simp only [bind_eq_ok] at h
  obtain ⟨⟨proplen, n⟩, s', hvar, props', s'', hloop, h⟩ := h
  split at h
  · exact absurd h fail_ne_ok
  · rename_i hcheck
    obtain ⟨rfl, rfl⟩ := pure_eq_ok.mp h
    obtain ⟨hlt, -, rfl⟩ := packetReadVarint_eq_ok.mp hvar
    obtain ⟨hall, rfl, hlen⟩ := propertyReadLoop_sound hloop
    have hmod := congrArg UInt32.toNat hlen
    rw [UInt32.toNat_ofNat', UInt32.toNat_ofNat', Nat.mod_eq_of_lt (by omega)] at hmod
    exact ⟨proplen, hlt, hall, not_not.mp hcheck, (List.append_assoc _ _ _).symm, hmod⟩

/-- **What `property__read_all` returns and what it takes.** -/
theorem propertyReadAll_eq_ok {command : Nat} {s rest : Bytes} {props : List Property}
    (hs : s.length < 2 ^ 28 ∨ (propertiesBytes props).length < 2 ^ 28) :
    propertyReadAll command s = .ok (props, rest) ↔
      (∀ p ∈ props, p.Readable) ∧ (propertiesBytes props).length < 2 ^ 28 ∧
      mosquittoPropertyCheckAll command props = Rc.success ∧
      s = varintBytes (propertiesBytes props).length ++ propertiesBytes props ++ rest := by
  constructor
  · intro h
    obtain ⟨proplen, hlt, hall, hcheck, rfl, hmod⟩ := propertyReadAll_sound h
    -- the counter would have to wrap to end at another length
    have hshort : (propertiesBytes props).length < 2 ^ 28 := by
      rcases hs with hs | hs
      · simp only [List.length_append] at hs
        omega
      · exact hs
    obtain rfl : proplen = (propertiesBytes props).length := by omega
    exact ⟨hall, hshort, hcheck, rfl⟩
  · rintro ⟨hall, hshort, hcheck, rfl⟩
    unfold propertyReadAll
    simp only [bind_eq_ok]
    refine ⟨((propertiesBytes props).length, _), propertiesBytes props ++ rest,
      packetReadVarint_eq_ok.mpr ⟨hshort, rfl, List.append_assoc _ _ _⟩, props, rest,
      propertyReadLoop_complete hall (by omega) ?_, ?_⟩
    · have := length_le_propertiesBytes props
      rw [List.length_append]
      omega
    · rw [if_neg (not_not.mpr hcheck)]
      rfl

theorem packetVarintBytes_le (word : Nat) : packetVarintBytes word ≤ 5 := by
  unfold packetVarintBytes
  split_ifs <;> omega

theorem packetVarintBytes_small {word : Nat} (h : word < 2 ^ 28) :
    packetVarintBytes word ≤ 4 := by
  unfold packetVarintBytes
  split_ifs <;> omega

theorem propertyGetRemainingLength_eq {props : List Property} (h : ∀ p ∈ props, p.Readable)
    (hlen : (propertiesBytes props).length < 2 ^ 28) : propertyGetRemainingLength props =
      (varintBytes (propertiesBytes props).length ++ propertiesBytes props).length := by
  have hvar := packetVarintBytes_le (propertiesBytes props).length
  have hmod : (propertiesBytes props).length % 2 ^ 32 = (propertiesBytes props).length :=
    Nat.mod_eq_of_lt (by omega)
  unfold propertyGetRemainingLength
  rw [propertyGetLengthAll_eq h, hmod, List.length_append, length_varintBytes hlen]
  omega

/-- **The property codec is a round trip in both directions.** -/
theorem property_roundtrip (command : Nat) :
    (∀ props, mosquittoPropertyCheckAll command props = Rc.success → (∀ p ∈ props, p.Readable) →
      (props.map propertyGetLength).sum < 2 ^ 28 →
      ∃ bs, bs.length = propertyGetRemainingLength props ∧
        (∀ out h, propertyWriteAll props true out = .ok ((), out.push bs h)) ∧
        ∀ rest, propertyReadAll command (bs ++ rest) = .ok (props, rest)) ∧
    (∀ s props rest, s.length < 2 ^ 28 → propertyReadAll command s = .ok (props, rest) →
      ∃ announced varint body, s = varint ++ body ++ rest ∧
        packetReadVarint s = .ok ((announced, varint.length), body ++ rest) ∧
        body.length = announced ∧
        ∀ out h, propertyWriteAll props true out = .ok ((), out.push (varint ++ body) h)) := by
  constructor
  · intro props hcheck hall hsum
    have hlen : (propertiesBytes props).length < 2 ^ 28 := sum_propertyGetLength hall ▸ hsum
    refine ⟨_, (propertyGetRemainingLength_eq hall hlen).symm, fun out h => ?_, fun rest => ?_⟩
    · rw [propertyWriteAll_eq hall hlen]
      exact emit_fits h
    · exact (propertyReadAll_eq_ok (.inr hlen)).mpr ⟨hall, hlen, hcheck, rfl⟩
  · intro s props rest hs h
    obtain ⟨hall, hlen, -, rfl⟩ := (propertyReadAll_eq_ok (.inl hs)).mp h
    refine ⟨_, varintBytes (propertiesBytes props).length, propertiesBytes props, rfl,
      packetReadVarint_eq_ok.mpr ⟨hlen, rfl, List.append_assoc _ _ _⟩, rfl, fun out h => ?_⟩
    rw [propertyWriteAll_eq hall hlen]
    exact emit_fits h

/-- A PUBLISH with a subscription identifier and a user property, both ways. -/
theorem property_roundtrip_publish :
    let props : List Property := [⟨subscriptionIdentifier, .varint 300⟩,
      ⟨userProperty, .stringPair (ascii "a") (ascii "b")⟩]
    let bs : Bytes := [10, 11, 172, 2, 38, 0, 1, 97, 0, 1, 98]
    (∃ bs, bs.length = propertyGetRemainingLength props ∧
      (∀ out h, propertyWriteAll props true out = .ok ((), out.push bs h)) ∧
      ∀ rest, propertyReadAll Cmd.publish (bs ++ rest) = .ok (props, rest)) ∧
    ∃ announced varint body, bs = varint ++ body ++ [] ∧
      packetReadVarint bs = .ok ((announced, varint.length), body ++ []) ∧
      body.length = announced ∧
      ∀ out h, propertyWriteAll props true out = .ok ((), out.push (varint ++ body) h) :=
  ⟨(property_roundtrip Cmd.publish).1 _ (by decide) (by decide) (by decide),
    (property_roundtrip Cmd.publish).2 _ _ _ (by decide) (by decide)⟩

/-! ## The API -/

/-- A conversion of a `size_t` to `int`. -/
def castInt (n : Nat) : Int :=
  if n % 2 ^ 32 < 2 ^ 31 then (n % 2 ^ 32 : Nat) else (n % 2 ^ 32 : Nat) - 2 ^ 32

def mosquittoPropertyAddByte (proplist : List Property) (identifier : Nat) (value : UInt8) :
    Rc × List Property :=
  if identifier ≠ payloadFormatIndicator ∧ identifier ≠ requestProblemInformation ∧
      identifier ≠ requestResponseInformation ∧ identifier ≠ maximumQos ∧
      identifier ≠ retainAvailable ∧ identifier ≠ wildcardSubAvailable ∧
      identifier ≠ subscriptionIdAvailable ∧ identifier ≠ sharedSubAvailable then
    (Rc.inval, proplist)
  else (Rc.success, proplist ++ [⟨identifier, .byte value⟩])

def mosquittoPropertyAddInt16 (proplist : List Property) (identifier : Nat) (value : UInt16) :
    Rc × List Property :=
  if identifier ≠ serverKeepAlive ∧ identifier ≠ receiveMaximum ∧
      identifier ≠ topicAliasMaximum ∧ identifier ≠ topicAlias then (Rc.inval, proplist)
  else (Rc.success, proplist ++ [⟨identifier, .int16 value⟩])

def mosquittoPropertyAddInt32 (proplist : List Property) (identifier : Nat) (value : UInt32) :
    Rc × List Property :=
  if identifier ≠ messageExpiryInterval ∧ identifier ≠ sessionExpiryInterval ∧
      identifier ≠ willDelayInterval ∧ identifier ≠ maximumPacketSize then (Rc.inval, proplist)
  else (Rc.success, proplist ++ [⟨identifier, .int32 value⟩])

def mosquittoPropertyAddVarint (proplist : List Property) (identifier : Nat) (value : UInt32) :
    Rc × List Property :=
  if value.toNat > 268435455 then (Rc.inval, proplist)
  else if identifier ≠ subscriptionIdentifier then (Rc.inval, proplist)
  else (Rc.success, proplist ++ [⟨identifier, .varint value.toNat⟩])

/-- `mosquitto_property_add_binary`: `len` bytes from `value` on. -/
def mosquittoPropertyAddBinary (proplist : List Property) (identifier : Nat) (value : Bytes)
    (len : UInt16) : Rc × List Property :=
  if identifier ≠ correlationData ∧ identifier ≠ authenticationData then (Rc.inval, proplist)
  else (Rc.success, proplist ++ [⟨identifier, .binary (value.take len.toNat)⟩])

/-- A string with its length in a `uint16_t`. `NULL` has no bytes. -/
def storedString (value : Option Bytes) : Bytes :=
  (value.getD []).take ((value.getD []).length % 2 ^ 16)

def mosquittoPropertyAddString (proplist : List Property) (identifier : Nat)
    (value : Option Bytes) : Rc × List Property :=
  if value.any fun v => mosquittoValidateUtf8 v (castInt v.length) ≠ Rc.success then
    (Rc.malformedUtf8, proplist)
  else if identifier ≠ contentType ∧ identifier ≠ responseTopic ∧
      identifier ≠ assignedClientIdentifier ∧ identifier ≠ authenticationMethod ∧
      identifier ≠ responseInformation ∧ identifier ≠ serverReference ∧
      identifier ≠ reasonString then (Rc.inval, proplist)
  else (Rc.success, proplist ++ [⟨identifier, .string (storedString value)⟩])

/-- `mosquitto_property_add_string_pair`. `slen_value` stays 0 in the check of the value. -/
def mosquittoPropertyAddStringPair (proplist : List Property) (identifier : Nat)
    (name value : Option Bytes) : Rc × List Property :=
  if identifier ≠ userProperty then (Rc.inval, proplist)
  else if name.any fun v => mosquittoValidateUtf8 v (castInt v.length) ≠ Rc.success then
    (Rc.malformedUtf8, proplist)
  else if value.any fun v => mosquittoValidateUtf8 v 0 ≠ Rc.success then
    (Rc.malformedUtf8, proplist)
  else (Rc.success,
    proplist ++ [⟨identifier, .stringPair (storedString name) (storedString value)⟩])

inductive AddCall where
  | byte (identifier : Nat) (value : UInt8)
  | int16 (identifier : Nat) (value : UInt16)
  | int32 (identifier : Nat) (value : UInt32)
  | varint (identifier : Nat) (value : UInt32)
  | binary (identifier : Nat) (value : Bytes) (len : UInt16)
  | string (identifier : Nat) (value : Option Bytes)
  | stringPair (identifier : Nat) (name value : Option Bytes)

namespace AddCall

def run (proplist : List Property) : AddCall → Rc × List Property
  | byte identifier value => mosquittoPropertyAddByte proplist identifier value
  | int16 identifier value => mosquittoPropertyAddInt16 proplist identifier value
  | int32 identifier value => mosquittoPropertyAddInt32 proplist identifier value
  | varint identifier value => mosquittoPropertyAddVarint proplist identifier value
  | binary identifier value len => mosquittoPropertyAddBinary proplist identifier value len
  | string identifier value => mosquittoPropertyAddString proplist identifier value
  | stringPair identifier name value =>
    mosquittoPropertyAddStringPair proplist identifier name value

def passed : AddCall → Property
  | byte identifier value => ⟨identifier, .byte value⟩
  | int16 identifier value => ⟨identifier, .int16 value⟩
  | int32 identifier value => ⟨identifier, .int32 value⟩
  | varint identifier value => ⟨identifier, .varint value.toNat⟩
  | binary identifier value len => ⟨identifier, .binary (value.take len.toNat)⟩
  | string identifier value => ⟨identifier, .string (value.getD [])⟩
  | stringPair identifier name value => ⟨identifier, .stringPair (name.getD []) (value.getD [])⟩

/-- No string is longer than 65535 bytes, and the value of a user property is UTF-8. -/
def Sendable : AddCall → Prop
  | string _ value => (value.getD []).length ≤ 65535
  | stringPair _ name value =>
    (name.getD []).length ≤ 65535 ∧ (value.getD []).length ≤ 65535 ∧ Utf8 (value.getD [])
  | _ => True

end AddCall

/-- The list after calls that all succeed. -/
def addAll : List AddCall → List Property → Option (List Property)
  | [], proplist => some proplist
  | call :: calls, proplist =>
    if (call.run proplist).1 = Rc.success then addAll calls (call.run proplist).2 else none

theorem castInt_small {n : Nat} (h : n ≤ 65535) : castInt n = n := by
  rw [castInt, Nat.mod_eq_of_lt (by omega), if_pos (by omega)]

theorem storedString_small {value : Option Bytes} (h : (value.getD []).length ≤ 65535) :
    storedString value = value.getD [] := by
  rw [storedString, Nat.mod_eq_of_lt (by omega), List.take_length]

theorem utf8_of_checked {value : Option Bytes} (h : (value.getD []).length ≤ 65535)
    (hv : ¬ value.any (fun v => mosquittoValidateUtf8 v (castInt v.length) ≠ Rc.success) = true) :
    Utf8 (value.getD []) := by
  cases value with
  | none => exact utf8_nil
  | some v =>
    have hsmall : castInt v.length = v.length := castInt_small h
    rw [Option.any_some, decide_eq_true_eq, not_not, hsmall] at hv
    exact hv

/-- A call that succeeds appends one property, the one that was passed if it is sendable. -/
theorem AddCall.run_success {call : AddCall} {l : List Property}
    (h : (call.run l).1 = Rc.success) : ∃ p, (call.run l).2 = l ++ [p] ∧
      (call.Sendable → p = call.passed ∧ call.passed.Readable) := by
  cases call with
  | byte identifier value =>
    simp only [run, mosquittoPropertyAddByte] at h ⊢
    split at h
    · cases h
    · rename_i hid
      rw [if_neg hid]
      refine ⟨_, rfl, fun _ => ⟨rfl, ?_, trivial⟩⟩
      simp only [not_and_or, not_not] at hid
      rcases hid with rfl | rfl | rfl | rfl | rfl | rfl | rfl | rfl <;> rfl
  | int16 identifier value =>
    simp only [run, mosquittoPropertyAddInt16] at h ⊢
    split at h
    · cases h
    · rename_i hid
      rw [if_neg hid]
      refine ⟨_, rfl, fun _ => ⟨rfl, ?_, trivial⟩⟩
      simp only [not_and_or, not_not] at hid
      rcases hid with rfl | rfl | rfl | rfl <;> rfl
  | int32 identifier value =>
    simp only [run, mosquittoPropertyAddInt32] at h ⊢
    split at h
    · cases h
    · rename_i hid
      rw [if_neg hid]
      refine ⟨_, rfl, fun _ => ⟨rfl, ?_, trivial⟩⟩
      simp only [not_and_or, not_not] at hid
      rcases hid with rfl | rfl | rfl | rfl <;> rfl
  | varint identifier value =>
    simp only [run, mosquittoPropertyAddVarint] at h ⊢
    split at h
    · cases h
    · rename_i hsmall
      rw [if_neg hsmall]
      split at h
      · cases h
      · rename_i hid
        rw [if_neg hid]
        obtain rfl := not_not.mp hid
        exact ⟨_, rfl, fun _ => ⟨rfl, rfl, Nat.lt_succ_of_le (Nat.le_of_not_lt hsmall)⟩⟩
  | binary identifier value len =>
    simp only [run, mosquittoPropertyAddBinary] at h ⊢
    split at h
    · cases h
    · rename_i hid
      rw [if_neg hid]
      have hlen : (value.take len.toNat).length ≤ 65535 := by
        have := len.toNat_lt
        rw [List.length_take]
        omega
      refine ⟨_, rfl, fun _ => ⟨rfl, ?_, hlen⟩⟩
      simp only [not_and_or, not_not] at hid
      rcases hid with rfl | rfl <;> rfl
  | string identifier value =>
    simp only [run, mosquittoPropertyAddString] at h ⊢
    split at h
    · cases h
    · rename_i hutf
      rw [if_neg hutf]
      split at h
      · cases h
      · rename_i hid
        rw [if_neg hid]
        refine ⟨_, rfl, fun hs => ⟨?_, ?_, hs, utf8_of_checked hs hutf⟩⟩
        · rw [storedString_small hs]
          rfl
        · simp only [not_and_or, not_not] at hid
          rcases hid with rfl | rfl | rfl | rfl | rfl | rfl | rfl <;> rfl
  | stringPair identifier name value =>
    simp only [run, mosquittoPropertyAddStringPair] at h ⊢
    split at h
    · cases h
    · rename_i hid
      rw [if_neg hid]
      obtain rfl := not_not.mp hid
      split at h
      · cases h
      · rename_i hutf
        rw [if_neg hutf]
        split at h
        · cases h
        · rename_i hutf'
          rw [if_neg hutf']
          refine ⟨_, rfl, fun hs => ⟨?_, rfl, ⟨hs.1, utf8_of_checked hs.1 hutf⟩, hs.2⟩⟩
          rw [storedString_small hs.1, storedString_small hs.2.1]
          rfl

theorem AddCall.sendable_of_readable {call : AddCall} (h : call.passed.Readable) :
    call.Sendable := by
  cases call with
  | string identifier value => exact h.2.1
  | stringPair identifier name value => exact ⟨h.2.1.1, h.2.2⟩
  | _ => trivial

theorem addAll_sendable {calls : List AddCall} {l props : List Property}
    (h : addAll calls l = some props) (hs : ∀ call ∈ calls, call.Sendable) :
    props = l ++ calls.map AddCall.passed ∧ ∀ p ∈ calls.map AddCall.passed, p.Readable := by
  induction calls generalizing l with
  | nil =>
    obtain rfl : l = props := Option.some.inj h
    exact ⟨(List.append_nil l).symm, fun p hp => (nomatch hp)⟩
  | cons call calls ih =>
    obtain ⟨hcall, hs⟩ := List.forall_mem_cons.mp hs
    rw [addAll] at h
    split at h
    · rename_i hrun
      obtain ⟨p, hp, hpassed⟩ := AddCall.run_success hrun
      obtain ⟨rfl, hread⟩ := hpassed hcall
      rw [hp] at h
      obtain ⟨rfl, hall⟩ := ih h hs
      refine ⟨by rw [List.map_cons, List.append_assoc]; rfl, ?_⟩
      rw [List.map_cons]
      exact List.forall_mem_cons.mpr ⟨hread, hall⟩
    · cases h

/-- **What the property API accepts can be sent exactly if** no string is longer than 65535
bytes, the values of user properties are UTF-8 and the list has less than 2^28 bytes. The
packet has the room its writers reserve for the list. -/
theorem added_is_sent_iff {command : Nat} {calls : List AddCall} {props : List Property}
    (hadd : addAll calls [] = some props)
    (hcheck : mosquittoPropertyCheckAll command props = Rc.success) :
    (∃ out, propertyWriteAll props true (Sink.alloc UInt8 (propertyGetRemainingLength props)) =
        .ok ((), out) ∧
      propertyReadAll command out.written = .ok (calls.map AddCall.passed, [])) ↔
    (∀ call ∈ calls, call.Sendable) ∧
      (propertiesBytes (calls.map AddCall.passed)).length < 2 ^ 28 := by
  constructor
  · rintro ⟨out, hwrite, hread⟩
    obtain ⟨n, hn, hall, -, hout, hcount⟩ := propertyReadAll_sound hread
    have hs : ∀ call ∈ calls, call.Sendable := fun call hc =>
      AddCall.sendable_of_readable (hall _ (List.mem_map_of_mem hc))
    obtain ⟨rfl, -⟩ := addAll_sendable hadd hs
    refine ⟨hs, ?_⟩
    rw [List.nil_append] at hwrite
    -- all bytes fitted into the room for the length up to 2^32
    rw [propertyWriteAll_wrapped hall (hcount ▸ hn)] at hwrite
    obtain ⟨hfit, -⟩ := emit_eq_ok hwrite
    have hroom : propertyGetRemainingLength (calls.map AddCall.passed) ≤ n + 5 := by
      have hvar := packetVarintBytes_le n
      unfold propertyGetRemainingLength
      rw [propertyGetLengthAll_eq hall, ← hcount]
      omega
    simp only [Sink.alloc, List.length_nil, List.length_append] at hfit
    omega
  · rintro ⟨hs, hlen⟩
    obtain ⟨rfl, hall⟩ := addAll_sendable hadd hs
    rw [List.nil_append] at hcheck ⊢
    have hroom := propertyGetRemainingLength_eq hall hlen
    have hfit : (Sink.alloc UInt8 (propertyGetRemainingLength (calls.map AddCall.passed))).written.length
        + (varintBytes (propertiesBytes (calls.map AddCall.passed)).length ++
          propertiesBytes (calls.map AddCall.passed)).length ≤
        (Sink.alloc UInt8 (propertyGetRemainingLength (calls.map AddCall.passed))).size := by
      rw [← hroom]
      exact Nat.le_of_eq (Nat.zero_add _)
    refine ⟨_, by rw [propertyWriteAll_eq hall hlen]; exact emit_fits hfit, ?_⟩
    exact (propertyReadAll_eq_ok (.inr hlen)).mpr
      ⟨hall, hlen, hcheck, (List.append_nil _).symm⟩

/-- A user property with a value in UTF-8 arrives. -/
theorem added_is_sent_user :
    let calls := [AddCall.stringPair userProperty (some (ascii "a")) (some (ascii "b"))]
    let props : List Property := [⟨userProperty, .stringPair (ascii "a") (ascii "b")⟩]
    ∃ out, propertyWriteAll props true (Sink.alloc UInt8 (propertyGetRemainingLength props)) =
        .ok ((), out) ∧
      propertyReadAll Cmd.publish out.written = .ok (calls.map AddCall.passed, []) := by
  refine (added_is_sent_iff ?_ ?_).mpr ⟨?_, ?_⟩
  · decide
  · decide
  · exact List.forall_mem_singleton.mpr ⟨by decide, by decide, by decide⟩
  · decide

/-- **A user property that the API accepts and the peer refuses**: its value is the byte
0xFF, which is never part of UTF-8. -/
theorem added_not_sent :
    let calls := [AddCall.stringPair userProperty (some (ascii "a")) (some [0xFF])]
    let props : List Property := [⟨userProperty, .stringPair (ascii "a") [0xFF]⟩]
    addAll calls [] = some props ∧
    mosquittoPropertyCheckAll Cmd.publish props = Rc.success ∧
    ∃ out, propertyWriteAll props true (Sink.alloc UInt8 (propertyGetRemainingLength props)) =
        .ok ((), out) ∧
      propertyReadAll Cmd.publish out.written = .error Rc.malformedUtf8 :=
  ⟨by decide, by decide, _, rfl, by decide⟩

end AdaptiveMqtt.Packet
