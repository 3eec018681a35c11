import AdaptiveMqtt.Basic
import AdaptiveMqtt.Lib.Codec

/-!
# The data types of a packet

`lib/packet_datatypes.c` and `lib/utf8_mosq.c`. A packet that is read is what is left of
it, `payload[pos]` up to `remaining_length`; a packet that is written is a buffer of
`packet_length` bytes, where writing past the end is a failed `assert`. Packets end at
2^28 + 5 bytes, so that no sum of a position and a length wraps.

Every writer is an `emit` of the bytes it writes, every reader reads these bytes back,
and whatever a reader accepts is what the writer writes for its result.
-/

namespace AdaptiveMqtt

abbrev Rc.malformedUtf8 : Rc := 18

namespace Packet

open Lib Reader Writer

/-- How the writing of a packet ends early: by a failed `assert` or with a code. -/
inductive Halt where
  | abort
  | code (rc : Rc)
  deriving DecidableEq, Repr

abbrev PacketReader := Reader UInt8 Rc

abbrev PacketWriter := Lib.Writer UInt8 Halt

/-! ## Bytes -/

def packetReadByte : PacketReader UInt8 := item Rc.malformedPacket

def packetReadBytes (count : Nat) : PacketReader Bytes := items Rc.malformedPacket count

def packetWriteByte (byte : UInt8) : PacketWriter Unit := emit .abort [byte]

def packetWriteBytes (bytes : Bytes) : PacketWriter Unit := emit .abort bytes

/-! ## Integers -/

def mosqMsb (a : UInt16) : UInt8 := ((a &&& 0xFF00) >>> 8).toUInt8

def mosqLsb (a : UInt16) : UInt8 := (a &&& 0x00FF).toUInt8

def packetReadUint16 : PacketReader UInt16 := do
  let bytes ← items Rc.malformedPacket 2
  match bytes with
  | [msb, lsb] => pure ((msb.toUInt16 <<< 8) + lsb.toUInt16)
  | _ => fail Rc.malformedPacket

def packetWriteUint16 (word : UInt16) : PacketWriter Unit := do
  packetWriteByte (mosqMsb word)
  packetWriteByte (mosqLsb word)

def packetReadUint32 : PacketReader UInt32 := do
  let bytes ← items Rc.malformedPacket 4
  pure (bytes.foldl (fun val b => (val <<< 8) + b.toUInt32) 0)

def packetWriteUint32 (word : UInt32) : PacketWriter Unit := do
  packetWriteByte ((word &&& 0xFF000000) >>> 24).toUInt8
  packetWriteByte ((word &&& 0x00FF0000) >>> 16).toUInt8
  packetWriteByte ((word &&& 0x0000FF00) >>> 8).toUInt8
  packetWriteByte (word &&& 0x000000FF).toUInt8

def readVarintLoop : Nat → (remainingMult lword lbytes : Nat) → PacketReader (Nat × Nat)
  | 0, _, _, _ => fail Rc.malformedPacket
  | left + 1, remainingMult, lword, lbytes => do
    let byte ← item Rc.malformedPacket
    let lbytes := lbytes + 1
    let lword := lword + (byte &&& 127).toNat * remainingMult
    if byte &&& 128 = 0 then
      -- overlong encodings
      if lbytes > 1 ∧ byte = 0 then fail Rc.malformedPacket else pure (lword, lbytes)
    else readVarintLoop left (remainingMult * 128) lword lbytes

/-- `packet__read_varint`: the word and the bytes it took. -/
def packetReadVarint : PacketReader (Nat × Nat) := readVarintLoop 4 1 0 0

def writeVarintLoop : Nat → Nat → PacketWriter Unit
  | 0, _ => Writer.fail (.code Rc.malformedPacket)
  | left + 1, word => do
    let byte := UInt8.ofNat (word % 128)
    let word := word / 128
    packetWriteByte (if word > 0 then byte ||| 0x80 else byte)
    if word > 0 ∨ left = 0 then writeVarintLoop left word else pure ()

def packetWriteVarint (word : Nat) : PacketWriter Unit := writeVarintLoop 5 word

def packetVarintBytes (word : Nat) : Nat :=
  if word < 128 then 1
  else if word < 16384 then 2
  else if word < 2097152 then 3
  else if word < 268435456 then 4
  else 5

/-! ## Strings -/

/-- The length of the sequence a byte starts and its part of the code point. -/
def codeStart (b : UInt8) : Option (Nat × Nat) :=
  if b = 0 then none
  else if b ≤ 0x7f then some (1, b.toNat)
  else if b &&& 0xE0 = 0xC0 then
    if b = 0xC0 ∨ b = 0xC1 then none else some (2, (b &&& 0x1F).toNat)
  else if b &&& 0xF0 = 0xE0 then some (3, (b &&& 0x0F).toNat)
  else if b &&& 0xF8 = 0xF0 then
    if b > 0xF4 then none else some (4, (b &&& 0x07).toNat)
  else none

/-- The continuation bytes of a sequence. Past the end of the string is its NUL. -/
def codeRest : Nat → Nat → Bytes → Option Nat
  | 0, codepoint, _ => some codepoint
  | n + 1, codepoint, s =>
    let b := s.headD 0
    if b &&& 0xC0 ≠ 0x80 then none
    else codeRest n (codepoint * 64 + (b &&& 0x3F).toNat) s.tail

/-- The checks of a whole code point. -/
def codepointOk (codelen codepoint : Nat) : Bool :=
  !(0xD800 ≤ codepoint && codepoint ≤ 0xDFFF) &&
  !(codelen = 3 && codepoint < 0x0800) &&
  !(codelen = 4 && (codepoint < 0x10000 || codepoint > 0x10FFFF)) &&
  !(0xFDD0 ≤ codepoint && codepoint ≤ 0xFDEF) &&
  !(codepoint % 0x10000 = 0xFFFE || codepoint % 0x10000 = 0xFFFF) &&
  !(codepoint ≤ 0x001F || (0x007F ≤ codepoint && codepoint ≤ 0x009F))

/-- The loop of `mosquitto_validate_utf8` over the next `left` bytes of `s`. Every turn
takes one at least, so `fuel` is `left` at the start. -/
def utf8Loop : Nat → (left : Nat) → Bytes → Rc
  | _, 0, _ => Rc.success
  | 0, _ + 1, _ => Rc.malformedUtf8
  | fuel + 1, left + 1, s =>
    match codeStart (s.headD 0) with
    | none => Rc.malformedUtf8
    | some (codelen, codepoint) =>
      -- not enough data
      if left + 1 = codelen - 1 then Rc.malformedUtf8
      else
        match codeRest (codelen - 1) codepoint s.tail with
        | none => Rc.malformedUtf8
        | some codepoint =>
          if codepointOk codelen codepoint then
            utf8Loop fuel (left + 1 - codelen) (s.drop codelen)
          else Rc.malformedUtf8

def mosquittoValidateUtf8 (str : Bytes) (len : Int) : Rc :=
  if len < 0 ∨ len > 65536 then Rc.inval else utf8Loop len.toNat len.toNat str

def packetReadBinary : PacketReader Bytes := do
  let slen ← packetReadUint16
  if slen = 0 then pure []
  else items Rc.malformedPacket slen.toNat

def packetReadString : PacketReader Bytes := do
  let str ← packetReadBinary
  if str.length = 0 then pure []
  else if mosquittoValidateUtf8 str str.length ≠ Rc.success then fail Rc.malformedUtf8
  else pure str

/-- `packet__write_string`: `str` is what `length` covers of the string. -/
def packetWriteString (str : Bytes) (length : UInt16) : PacketWriter Unit := do
  packetWriteUint16 length
  packetWriteBytes (str.take length.toNat)

/-! ## Words -/

def uint16Bytes (word : UInt16) : Bytes := [mosqMsb word, mosqLsb word]

def uint32Bytes (word : UInt32) : Bytes :=
  [((word &&& 0xFF000000) >>> 24).toUInt8, ((word &&& 0x00FF0000) >>> 16).toUInt8,
    ((word &&& 0x0000FF00) >>> 8).toUInt8, (word &&& 0x000000FF).toUInt8]

@[simp] theorem length_uint16Bytes (word : UInt16) : (uint16Bytes word).length = 2 := rfl

@[simp] theorem length_uint32Bytes (word : UInt32) : (uint32Bytes word).length = 4 := rfl

theorem packetWriteUint16_eq (word : UInt16) :
    packetWriteUint16 word = emit .abort (uint16Bytes word) := emit_append _ _

theorem packetWriteUint32_eq (word : UInt32) :
    packetWriteUint32 word = emit .abort (uint32Bytes word) := by
  unfold packetWriteUint32 packetWriteByte
  simp only [emit_append]
  rfl

theorem byte_of_mask (n k : Nat) : (n &&& 255 * 2 ^ k) >>> k % 256 = n / 2 ^ k % 256 := by
  have hmask : (255 * 2 ^ k) >>> k = 2 ^ 8 - 1 := by
    rw [Nat.shiftRight_eq_div_pow, Nat.mul_div_cancel _ (Nat.two_pow_pos k)]
    rfl
  rw [Nat.shiftRight_and_distrib, hmask, Nat.and_two_pow_sub_one_eq_mod,
    Nat.shiftRight_eq_div_pow]
  exact Nat.mod_mod _ _

theorem low_byte (n : Nat) : n % 256 &&& 255 = n % 256 := by
  rw [show 255 = 2 ^ 8 - 1 from rfl, Nat.and_two_pow_sub_one_eq_mod]
  exact Nat.mod_mod _ _

theorem toNat_mosqMsb (a : UInt16) : (mosqMsb a).toNat = a.toNat / 256 := by
  have hlt := a.toNat_lt
  have hmask := byte_of_mask a.toNat 8
  have hto : (mosqMsb a).toNat = (a.toNat &&& 255 * 2 ^ 8) >>> 8 % 256 := by
    simp [mosqMsb]
  omega

theorem toNat_mosqLsb (a : UInt16) : (mosqLsb a).toNat = a.toNat % 256 := by
  rw [← low_byte a.toNat]
  simp [mosqLsb]

theorem toNat_join16 (msb lsb : UInt8) :
    ((msb.toUInt16 <<< 8) + lsb.toUInt16).toNat = msb.toNat * 256 + lsb.toNat := by
  have hm := msb.toNat_lt
  have hl := lsb.toNat_lt
  simp [Nat.shiftLeft_eq]
  omega

theorem packetReadUint16_eq_ok {s rest : Bytes} {word : UInt16} :
    packetReadUint16 s = .ok (word, rest) ↔ s = uint16Bytes word ++ rest := by
  unfold packetReadUint16
  simp only [bind_eq_ok, items_eq_ok]
  constructor
  · rintro ⟨bytes, s', ⟨rfl, hlen⟩, h⟩
    obtain ⟨msb, lsb, rfl⟩ := List.length_eq_two.mp hlen
    obtain ⟨rfl, rfl⟩ := pure_eq_ok.mp h
    have hjoin := toNat_join16 msb lsb
    have hlsb := lsb.toNat_lt
    have h1 : mosqMsb ((msb.toUInt16 <<< 8) + lsb.toUInt16) = msb := by
      apply UInt8.toNat_inj.mp
      rw [toNat_mosqMsb]
      omega
    have h2 : mosqLsb ((msb.toUInt16 <<< 8) + lsb.toUInt16) = lsb := by
      apply UInt8.toNat_inj.mp
      rw [toNat_mosqLsb]
      omega
    rw [uint16Bytes, h1, h2]
  · rintro rfl
    refine ⟨uint16Bytes word, rest, ⟨rfl, rfl⟩, pure_eq_ok.mpr ⟨?_, rfl⟩⟩
    apply UInt16.toNat_inj.mp
    rw [toNat_join16, toNat_mosqMsb, toNat_mosqLsb]
    omega

theorem toNat_join32 (val : UInt32) (b : UInt8) :
    ((val <<< 8) + b.toUInt32).toNat = val.toNat % 2 ^ 24 * 256 + b.toNat := by
  have hv := val.toNat_lt
  have hb := b.toNat_lt
  simp [Nat.shiftLeft_eq]
  omega

theorem toNat_uint32Bytes (word : UInt32) :
    (uint32Bytes word).map UInt8.toNat =
      [word.toNat / 2 ^ 24, word.toNat / 2 ^ 16 % 256, word.toNat / 2 ^ 8 % 256,
        word.toNat % 256] := by
  have hlt := word.toNat_lt
  have h3 := byte_of_mask word.toNat 24
  have h2 := byte_of_mask word.toNat 16
  have h1 := byte_of_mask word.toNat 8
  have hto : (uint32Bytes word).map UInt8.toNat =
      [(word.toNat &&& 255 * 2 ^ 24) >>> 24 % 256, (word.toNat &&& 255 * 2 ^ 16) >>> 16 % 256,
        (word.toNat &&& 255 * 2 ^ 8) >>> 8 % 256, word.toNat % 256 &&& 255] := by
    simp [uint32Bytes]
  rw [hto, h3, h2, h1, low_byte]
  simp only [List.cons.injEq, and_true]
  omega

theorem toNat_foldl32 (b₃ b₂ b₁ b₀ : UInt8) :
    ([b₃, b₂, b₁, b₀].foldl (fun (val : UInt32) b => (val <<< 8) + b.toUInt32) 0).toNat =
      b₃.toNat * 2 ^ 24 + b₂.toNat * 2 ^ 16 + b₁.toNat * 2 ^ 8 + b₀.toNat := by
  have h₃ := b₃.toNat_lt
  have h₂ := b₂.toNat_lt
  have h₁ := b₁.toNat_lt
  simp only [List.foldl_cons, List.foldl_nil, toNat_join32]
  rw [UInt32.toNat_zero]
  omega

theorem packetReadUint32_eq_ok {s rest : Bytes} {word : UInt32} :
    packetReadUint32 s = .ok (word, rest) ↔ s = uint32Bytes word ++ rest := by
  unfold packetReadUint32
  simp only [bind_eq_ok, items_eq_ok, pure_eq_ok]
  constructor
  · rintro ⟨bytes, s', ⟨rfl, hlen⟩, rfl, rfl⟩
    congr 1
    obtain ⟨b₃, b₂, b₁, b₀, rfl⟩ : ∃ b₃ b₂ b₁ b₀, bytes = [b₃, b₂, b₁, b₀] := by
      match bytes, hlen with
      | [b₃, b₂, b₁, b₀], _ => exact ⟨b₃, b₂, b₁, b₀, rfl⟩
    have h₃ := b₃.toNat_lt
    have h₂ := b₂.toNat_lt
    have h₁ := b₁.toNat_lt
    have h₀ := b₀.toNat_lt
    apply List.map_injective_iff.mpr fun a b => UInt8.toNat_inj.mp
    rw [toNat_uint32Bytes, toNat_foldl32]
    simp only [List.map_cons, List.map_nil, List.cons.injEq, and_true]
    omega
  · rintro rfl
    refine ⟨uint32Bytes word, rest, ⟨rfl, rfl⟩, ?_, rfl⟩
    have hlt := word.toNat_lt
    have hbytes := toNat_uint32Bytes word
    simp only [uint32Bytes, List.map_cons, List.map_nil, List.cons.injEq, and_true] at hbytes
    apply UInt32.toNat_inj.mp
    rw [uint32Bytes, toNat_foldl32]
    omega

/-! ## Variable byte integers -/

/-- The digits of `word` in base 128, the last without the top bit. -/
def varintDigits : Nat → Nat → Bytes
  | 0, _ => []
  | n + 1, word =>
    if word < 128 then [UInt8.ofNat word]
    else UInt8.ofNat (word % 128 + 128) :: varintDigits n (word / 128)

/-- The bytes of a word below 2^28. -/
def varintBytes (word : Nat) : Bytes := varintDigits 4 word

theorem length_varintDigits_pos (n word : Nat) : 0 < (varintDigits (n + 1) word).length := by
  rw [varintDigits]
  split <;> exact Nat.succ_pos _

theorem or_top_bit {n : Nat} (h : n < 128) :
    (UInt8.ofNat n ||| 0x80) = UInt8.ofNat (n + 128) := by
  apply UInt8.toNat_inj.mp
  have hor := Nat.two_pow_add_eq_or_of_lt (i := 7) h 1
  simp only [UInt8.toNat_or, UInt8.toNat_ofNat']
  rw [Nat.mod_eq_of_lt (by omega : n < 2 ^ 8), Nat.mod_eq_of_lt (by omega : n + 128 < 2 ^ 8),
    Nat.or_comm]
  show 128 ||| n = n + 128
  rw [Nat.add_comm]
  exact hor.symm

theorem writeVarintLoop_eq : ∀ {n word : Nat}, word < 128 ^ (n + 1) → ∀ {left : Nat}, n < left →
    writeVarintLoop (left + 1) word = emit .abort (varintDigits (n + 1) word) := by
  intro n
  induction n with
  | zero =>
    intro word h left hn
    have hword : word < 128 := by simpa using h
    rw [writeVarintLoop, varintDigits, if_pos hword]
    simp only [Nat.div_eq_of_lt hword, Nat.mod_eq_of_lt hword, gt_iff_lt, Nat.lt_irrefl, if_false,
      false_or, if_neg (by omega : ¬ left = 0)]
    exact bind_pure_unit
  | succ n ih =>
    intro word h left hn
    rw [writeVarintLoop, varintDigits]
    by_cases hword : word < 128
    · simp only [Nat.div_eq_of_lt hword, Nat.mod_eq_of_lt hword, gt_iff_lt, Nat.lt_irrefl, if_false,
        false_or, if_neg (by omega : ¬ left = 0), if_pos hword]
      exact bind_pure_unit
    · have hpos : word / 128 > 0 := by omega
      have hdiv : word / 128 < 128 ^ (n + 1) := by
        rw [Nat.div_lt_iff_lt_mul (by omega)]
        exact h
      obtain ⟨left, rfl⟩ : ∃ l, left = l + 1 := ⟨left - 1, by omega⟩
      simp only [hpos, if_true, true_or, if_neg hword]
      rw [ih hdiv (by omega), or_top_bit (Nat.mod_lt _ (by omega))]
      exact emit_append _ _

theorem packetWriteVarint_eq {word : Nat} (h : word < 2 ^ 28) :
    packetWriteVarint word = emit .abort (varintBytes word) :=
  writeVarintLoop_eq (n := 3) h (by omega)

theorem length_varintBytes {word : Nat} (h : word < 2 ^ 28) :
    (varintBytes word).length = packetVarintBytes word := by
  have h2 : word / 128 < 128 ↔ word < 16384 := by omega
  have h3 : word / 128 / 128 < 128 ↔ word < 2097152 := by omega
  have h4 : word / 128 / 128 / 128 < 128 := by omega
  unfold varintBytes packetVarintBytes
  simp only [varintDigits, h2, h3, if_pos h4]
  by_cases h1 : word < 128
  · rw [if_pos h1, if_pos h1]
    rfl
  · rw [if_neg h1, if_neg h1]
    by_cases h2 : word < 16384
    · rw [if_pos h2, if_pos h2]
      rfl
    · rw [if_neg h2, if_neg h2, if_pos (show word < 268435456 from h)]
      split <;> rfl

theorem toNat_low_bits (b : UInt8) : (b &&& 127).toNat = b.toNat % 128 := by
  rw [UInt8.toNat_and]
  exact Nat.and_two_pow_sub_one_eq_mod b.toNat 7

theorem top_bit_clear (b : UInt8) : b &&& 128 = 0 ↔ b.toNat < 128 := by
  have hlt := b.toNat_lt
  have hand : (b &&& 128).toNat = (b.toNat.testBit 7).toNat * 2 ^ 7 := by
    rw [UInt8.toNat_and]
    exact Nat.and_two_pow b.toNat 7
  rw [← UInt8.toNat_inj, hand, Nat.testBit_eq_decide_div_mod_eq]
  by_cases h : b.toNat / 2 ^ 7 % 2 = 1
  · simp only [h, decide_true, Bool.toNat_true, UInt8.toNat_zero]
    omega
  · simp only [h, decide_false, Bool.toNat_false, Nat.zero_mul, UInt8.toNat_zero, true_iff]
    omega

theorem readVarintLoop_eq_ok : ∀ {n mult lword lbytes word bytes : Nat} {s rest : Bytes},
    0 < lbytes ∨ 0 < n → (readVarintLoop n mult lword lbytes s = .ok ((word, bytes), rest) ↔
      ∃ v, v < 128 ^ n ∧ (0 < lbytes → 0 < v) ∧ word = lword + v * mult ∧
        bytes = lbytes + (varintDigits n v).length ∧ s = varintDigits n v ++ rest) := by
  intro n
  induction n with
  | zero =>
    intro mult lword lbytes word bytes s rest hpos
    refine ⟨fun h => (nomatch h), ?_⟩
    rintro ⟨v, hv, hne, -⟩
    have := hne (hpos.resolve_right (Nat.lt_irrefl 0))
    simp only [Nat.pow_zero] at hv
    omega
  | succ n ih =>
    intro mult lword lbytes word bytes s rest _
    rw [readVarintLoop, bind_eq_ok]
    simp only [item_eq_ok, toNat_low_bits, top_bit_clear]
    constructor
    · rintro ⟨b, s', rfl, h⟩
      by_cases hb : b.toNat < 128
      · rw [if_pos hb] at h
        split at h
        · exact absurd h fail_ne_ok
        · rename_i hover
          obtain ⟨he, rfl⟩ := pure_eq_ok.mp h
          obtain ⟨rfl, rfl⟩ := Prod.mk.inj he
          rw [Nat.mod_eq_of_lt hb]
          refine ⟨b.toNat, ?_, fun hl => ?_, rfl, ?_, ?_⟩
          · exact Nat.lt_of_lt_of_le hb (Nat.le_self_pow (by omega) 128)
          · by_contra h0
            exact hover ⟨by omega, UInt8.toNat_inj.mp (by simpa using h0)⟩
          · rw [varintDigits, if_pos hb]
            rfl
          · rw [varintDigits, if_pos hb, UInt8.ofNat_toNat]
            rfl
      · rw [if_neg hb, ih (.inl (by omega))] at h
        obtain ⟨v, hv, hne, hw, hbytes, hs⟩ := h
        have hvpos := hne (by omega)
        have hlt := b.toNat_lt
        have hbig : ¬ b.toNat % 128 + v * 128 < 128 := by omega
        have hdigits : varintDigits (n + 1) (b.toNat % 128 + v * 128) = b :: varintDigits n v := by
          rw [varintDigits, if_neg hbig]
          have h1 : (b.toNat % 128 + v * 128) % 128 + 128 = b.toNat := by omega
          have h2 : (b.toNat % 128 + v * 128) / 128 = v := by omega
          rw [h1, h2, UInt8.ofNat_toNat]
        refine ⟨b.toNat % 128 + v * 128, ?_, fun _ => by omega, ?_, ?_, ?_⟩
        · rw [Nat.pow_succ]
          omega
        · rw [hw]
          ring
        · rw [hdigits, hbytes, List.length_cons]
          omega
        · rw [hdigits, hs]
          rfl
    · rintro ⟨v, hv, hne, hw, hbytes, hs⟩
      rw [varintDigits] at hbytes hs
      by_cases hsmall : v < 128
      · rw [if_pos hsmall] at hbytes hs
        have hto : (UInt8.ofNat v).toNat = v := by
          rw [UInt8.toNat_ofNat']
          omega
        refine ⟨UInt8.ofNat v, rest, hs, ?_⟩
        rw [hto, if_pos hsmall, if_neg, pure_eq_ok, Nat.mod_eq_of_lt hsmall]
        · exact ⟨Prod.ext hw.symm hbytes.symm, rfl⟩
        · rintro ⟨hl, h0⟩
          have := hne (by omega)
          rw [h0] at hto
          simp only [UInt8.toNat_zero] at hto
          omega
      · rw [if_neg hsmall] at hbytes hs
        have hto : (UInt8.ofNat (v % 128 + 128)).toNat = v % 128 + 128 := by
          rw [UInt8.toNat_ofNat']
          omega
        refine ⟨_, varintDigits n (v / 128) ++ rest, hs, ?_⟩
        rw [hto, if_neg (by omega), ih (.inl (by omega))]
        refine ⟨v / 128, ?_, fun _ => by omega, ?_, ?_, rfl⟩
        · rw [Nat.div_lt_iff_lt_mul (by omega), ← Nat.pow_succ]
          exact hv
        · have hsplit : v = v % 128 + v / 128 * 128 := by omega
          rw [hw, show (v % 128 + 128) % 128 = v % 128 by omega]
          conv_lhs => rw [hsplit]
          ring
        · rw [hbytes, List.length_cons]
          omega

theorem packetReadVarint_eq_ok {s rest : Bytes} {word bytes : Nat} :
    packetReadVarint s = .ok ((word, bytes), rest) ↔
      word < 2 ^ 28 ∧ bytes = (varintBytes word).length ∧ s = varintBytes word ++ rest := by
  unfold packetReadVarint
  rw [readVarintLoop_eq_ok (.inr (by omega))]
  constructor
  · rintro ⟨v, hv, -, hw, hb, hs⟩
    obtain rfl : word = v := by omega
    exact ⟨hv, by rw [hb, Nat.zero_add]; rfl, hs⟩
  · rintro ⟨hw, hb, hs⟩
    exact ⟨word, hw, fun h => absurd h (Nat.lt_irrefl 0), by omega, by rw [hb, Nat.zero_add]; rfl,
      hs⟩

/-! ## Binary data and strings -/

def stringBytes (str : Bytes) : Bytes := uint16Bytes (UInt16.ofNat str.length) ++ str

/-- A string that `packet__read_string` accepts. -/
def Utf8 (str : Bytes) : Prop := mosquittoValidateUtf8 str str.length = Rc.success

instance (str : Bytes) : Decidable (Utf8 str) := inferInstanceAs (Decidable (_ = _))

theorem utf8_nil : Utf8 [] := rfl

@[simp] theorem length_stringBytes (str : Bytes) : (stringBytes str).length = 2 + str.length := by
  simp [stringBytes]

theorem packetWriteString_eq {str : Bytes} (h : str.length ≤ 65535) :
    packetWriteString str (UInt16.ofNat str.length) = emit .abort (stringBytes str) := by
  have hto : (UInt16.ofNat str.length).toNat = str.length := by
    rw [UInt16.toNat_ofNat']
    omega
  unfold packetWriteString packetWriteBytes
  rw [packetWriteUint16_eq, hto, List.take_length]
  exact emit_append _ _

theorem packetReadBinary_eq_ok {s rest data : Bytes} :
    packetReadBinary s = .ok (data, rest) ↔ data.length ≤ 65535 ∧ s = stringBytes data ++ rest := by
  unfold packetReadBinary
  simp only [bind_eq_ok, packetReadUint16_eq_ok]
  constructor
  · rintro ⟨slen, s', rfl, h⟩
    have hlt := slen.toNat_lt
    split at h
    · rename_i h0
      obtain ⟨rfl, rfl⟩ := pure_eq_ok.mp h
      rw [h0]
      exact ⟨by simp, rfl⟩
    · obtain ⟨rfl, hlen⟩ := items_eq_ok.mp h
      refine ⟨by omega, ?_⟩
      rw [stringBytes, hlen, UInt16.ofNat_toNat, List.append_assoc]
  · rintro ⟨hlen, rfl⟩
    have hto : (UInt16.ofNat data.length).toNat = data.length := by
      rw [UInt16.toNat_ofNat']
      omega
    refine ⟨UInt16.ofNat data.length, data ++ rest, by rw [stringBytes, List.append_assoc], ?_⟩
    split
    · rename_i h0
      have hnil : data.length = 0 := by
        rw [← hto, h0]
        rfl
      obtain rfl := List.length_eq_zero_iff.mp hnil
      rfl
    · exact items_eq_ok.mpr ⟨rfl, hto.symm⟩

theorem packetReadString_eq_ok {s rest str : Bytes} :
    packetReadString s = .ok (str, rest) ↔
      (str.length ≤ 65535 ∧ Utf8 str) ∧ s = stringBytes str ++ rest := by
  unfold packetReadString
  simp only [bind_eq_ok, packetReadBinary_eq_ok]
  constructor
  · rintro ⟨data, s', ⟨hlen, rfl⟩, h⟩
    split at h
    · rename_i h0
      obtain ⟨rfl, rfl⟩ := pure_eq_ok.mp h
      rw [List.length_eq_zero_iff.mp h0]
      exact ⟨⟨by simp, utf8_nil⟩, rfl⟩
    · split at h
      · exact absurd h fail_ne_ok
      · rename_i hutf
        obtain ⟨rfl, rfl⟩ := pure_eq_ok.mp h
        exact ⟨⟨hlen, not_not.mp hutf⟩, rfl⟩
  · rintro ⟨⟨hlen, hutf⟩, rfl⟩
    refine ⟨str, rest, ⟨hlen, rfl⟩, ?_⟩
    split
    · rename_i h0
      rw [List.length_eq_zero_iff.mp h0]
      rfl
    · have hutf : mosquittoValidateUtf8 str str.length = Rc.success := hutf
      rw [if_neg (not_not.mpr hutf)]
      rfl

end Packet

end AdaptiveMqtt
