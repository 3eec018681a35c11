import AdaptiveMqtt.Lib.Codec

/-!
# Words in memory

A word of `n` bytes lies in memory in the byte order of the host. `network` turns the bytes
round on a little-endian host, so that they lie in memory in network order; it is its own
inverse, so that the host that wrote a word reads it back, turned round or not.
-/

namespace AdaptiveMqtt.Lib

/-- The order in which a host stores the bytes of a word. -/
inductive ByteOrder where
  | little | big
  deriving DecidableEq, Repr

def lowBytes : Nat → Nat → List UInt8
  | 0, _ => []
  | n + 1, v => UInt8.ofNat v :: lowBytes n (v / 256)

/-- The number with these bytes, the lowest first. -/
def ofLowBytes : List UInt8 → Nat
  | [] => 0
  | b :: bs => b.toNat + 256 * ofLowBytes bs

theorem length_lowBytes (n v : Nat) : (lowBytes n v).length = n := by
  induction n generalizing v with
  | zero => rfl
  | succ n ih => rw [lowBytes, List.length_cons, ih]

theorem ofLowBytes_lowBytes {n v : Nat} (h : v < 256 ^ n) : ofLowBytes (lowBytes n v) = v := by
  induction n generalizing v with
  | zero =>
    rw [Nat.pow_zero] at h
    exact (Nat.lt_one_iff.mp h).symm
  | succ n ih =>
    have hdiv : v / 256 < 256 ^ n := by
      rw [Nat.pow_succ] at h
      exact Nat.div_lt_of_lt_mul (by rwa [Nat.mul_comm])
    rw [lowBytes, ofLowBytes, ih hdiv, UInt8.toNat_ofNat']
    omega

theorem lowBytes_ofLowBytes (bs : List UInt8) : lowBytes bs.length (ofLowBytes bs) = bs := by
  induction bs with
  | nil => rfl
  | cons b bs ih =>
    have hb := b.toNat_lt
    have hlow : UInt8.ofNat (b.toNat + 256 * ofLowBytes bs) = b := by
      apply UInt8.toNat_inj.mp
      rw [UInt8.toNat_ofNat']
      omega
    have hhigh : (b.toNat + 256 * ofLowBytes bs) / 256 = ofLowBytes bs := by omega
    rw [ofLowBytes, List.length_cons, lowBytes, hlow, hhigh, ih]

theorem ofLowBytes_lt (bs : List UInt8) : ofLowBytes bs < 256 ^ bs.length := by
  induction bs with
  | nil => exact Nat.one_pos
  | cons b bs ih =>
    have hb := b.toNat_lt
    rw [ofLowBytes, List.length_cons, Nat.pow_succ]
    omega

def swapBytes (n v : Nat) : Nat := ofLowBytes (lowBytes n v).reverse

theorem swapBytes_lt (n v : Nat) : swapBytes n v < 256 ^ n := by
  have h := ofLowBytes_lt (lowBytes n v).reverse
  rwa [List.length_reverse, length_lowBytes] at h

theorem lowBytes_swapBytes (n v : Nat) : lowBytes n (swapBytes n v) = (lowBytes n v).reverse := by
  have h := lowBytes_ofLowBytes (lowBytes n v).reverse
  rwa [List.length_reverse, length_lowBytes] at h

theorem swapBytes_swapBytes {n v : Nat} (h : v < 256 ^ n) : swapBytes n (swapBytes n v) = v := by
  rw [swapBytes, lowBytes_swapBytes, List.reverse_reverse, ofLowBytes_lowBytes h]

namespace ByteOrder

def bytes (host : ByteOrder) (n v : Nat) : List UInt8 :=
  match host with
  | little => lowBytes n v
  | big => (lowBytes n v).reverse

/-- The word with these bytes in memory. -/
def value (host : ByteOrder) (bs : List UInt8) : Nat :=
  match host with
  | little => ofLowBytes bs
  | big => ofLowBytes bs.reverse

/-- A word of `n` bytes to network order and back. -/
def network (host : ByteOrder) (n v : Nat) : Nat :=
  match host with
  | little => swapBytes n v
  | big => v

variable {host : ByteOrder} {n v : Nat}

theorem length_bytes (host : ByteOrder) (n v : Nat) : (host.bytes n v).length = n := by
  cases host with
  | little => exact length_lowBytes n v
  | big =>
    show (lowBytes n v).reverse.length = n
    rw [List.length_reverse, length_lowBytes]

theorem value_bytes (h : v < 256 ^ n) : host.value (host.bytes n v) = v := by
  cases host with
  | little => exact ofLowBytes_lowBytes h
  | big =>
    show ofLowBytes (lowBytes n v).reverse.reverse = v
    rw [List.reverse_reverse, ofLowBytes_lowBytes h]

theorem network_lt (h : v < 256 ^ n) : host.network n v < 256 ^ n := by
  cases host with
  | little => exact swapBytes_lt n v
  | big => exact h

theorem network_network (h : v < 256 ^ n) : host.network n (host.network n v) = v := by
  cases host with
  | little => exact swapBytes_swapBytes h
  | big => rfl

end ByteOrder

namespace Reader

variable {ε : Type}

/-- The next word of `n` bytes of the input. -/
def word (e : ε) (host : ByteOrder) (n : Nat) : Reader UInt8 ε Nat := do
  let bs ← items e n
  pure (host.value bs)

theorem word_bytes {e : ε} {host : ByteOrder} {n v : Nat} (h : v < 256 ^ n) (rest : List UInt8) :
    word e host n (host.bytes n v ++ rest) = .ok (v, rest) := by
  unfold word
  rw [bind_of_ok (items_eq_ok.mpr ⟨rfl, host.length_bytes n v⟩), ByteOrder.value_bytes h]
  rfl

end Reader

end AdaptiveMqtt.Lib

/-!
## C `int`

A C `int` of 32 bits is an integer that fits. Where the result of an operation does not fit,
the checked operations report it; `wrap` is the value that the usual machines give.
-/

namespace AdaptiveMqtt.Lib.CInt

/-- The value is one of an `int`. -/
def Fits (x : Int) : Prop := -2 ^ 31 ≤ x ∧ x < 2 ^ 31

instance (x : Int) : Decidable (Fits x) := inferInstanceAs (Decidable (_ ∧ _))

/-- What C leaves undefined. -/
inductive Fault where
  | overflow
  | divByZero
  deriving DecidableEq, Repr

/-- The result of an operation, if it fits. -/
def ret (x : Int) : Except Fault Int := if Fits x then .ok x else .error .overflow

def add (x y : Int) : Except Fault Int := ret (x + y)

def sub (x y : Int) : Except Fault Int := ret (x - y)

def mul (x y : Int) : Except Fault Int := ret (x * y)

def abs (x : Int) : Except Fault Int := ret (if x < 0 then -x else x)

/-- `%`, which rounds towards zero. -/
def rem (x y : Int) : Except Fault Int := if y = 0 then .error .divByZero else ret (x.tmod y)

/-- The `int` with the same lower 32 bits. -/
def wrap (x : Int) : Int := x.bmod (2 ^ 32)

variable {x y : Int}

theorem ret_of_fits (h : Fits x) : ret x = .ok x := if_pos h

theorem ret_of_not_fits (h : ¬ Fits x) : ret x = .error .overflow := if_neg h

theorem wrap_of_fits (h : Fits x) : wrap x = x := by
  obtain ⟨hlo, hhi⟩ := h
  unfold wrap
  rw [Int.bmod_eq_of_le] <;> omega

/-- A difference of two ints has the wrong sign exactly when it does not fit. -/
theorem wrap_sub_of_lt (hx : Fits x) (hy : Fits y) (h : y < x) :
    0 < wrap (x - y) ↔ Fits (x - y) := by
  unfold Fits wrap at *
  rw [Int.bmod_def]
  omega

theorem wrap_sub_eq_zero (hx : Fits x) (hy : Fits y) : wrap (x - y) = 0 ↔ x = y := by
  unfold Fits wrap at *
  rw [Int.bmod_def]
  omega

end AdaptiveMqtt.Lib.CInt
