/-!
# Byte strings

Byte strings and the two fixed-width layouts of a number: little endian for
the fields of a frame, big endian for the parts of a key whose byte order has
to agree with numeric order.

Main results:

- `length_littleEndian`, `length_bigEndian`: a fixed-width field has exactly
  its width, whatever the number.
- `ofLittleEndian_littleEndian`, `ofBigEndian_bigEndian`: reading a field back
  gives the number modulo `256 ^ width`.
-/

namespace StructuredStore

/-- A byte string, shortest index first. -/
abbrev Bytes := List UInt8

namespace Bytes

/-! ## Fixed-width numbers -/

/-- The `width` low bytes of `n`, least significant first. -/
def littleEndian : Nat → Nat → Bytes
  | 0, _ => []
  | width + 1, n => UInt8.ofNat n :: littleEndian width (n / 256)

/-- The number whose bytes are given least significant first. -/
def ofLittleEndian : Bytes → Nat
  | [] => 0
  | byte :: rest => byte.toNat + 256 * ofLittleEndian rest

/-- The `width` low bytes of `n`, most significant first. -/
def bigEndian (width n : Nat) : Bytes :=
  (littleEndian width n).reverse

/-- The number whose bytes are given most significant first. -/
def ofBigEndian (bytes : Bytes) : Nat :=
  ofLittleEndian bytes.reverse

/-- A field has the width that was asked for. -/
@[simp]
theorem length_littleEndian (width n : Nat) :
    (littleEndian width n).length = width := by
  induction width generalizing n with
  | zero => rfl
  | succ width ih => simp [littleEndian, ih]

/-- So has one whose highest byte comes first. -/
@[simp]
theorem length_bigEndian (width n : Nat) :
    (bigEndian width n).length = width := by
  simp [bigEndian]

/-- What is read back from a field is the number modulo the powers that the field has
room for. -/
theorem ofLittleEndian_littleEndian (width n : Nat) :
    ofLittleEndian (littleEndian width n) = n % Nat.pow 256 width := by
  induction width generalizing n with
  | zero => simp [littleEndian, ofLittleEndian, Nat.mod_one]
  | succ width ih =>
      have hpow : Nat.pow 256 (width + 1) = 256 * Nat.pow 256 width :=
        Nat.mul_comm _ _
      rw [littleEndian, ofLittleEndian, ih, hpow, Nat.mod_mul]
      simp

/-- The same with the highest byte first. -/
theorem ofBigEndian_bigEndian (width n : Nat) :
    ofBigEndian (bigEndian width n) = n % Nat.pow 256 width := by
  simp [ofBigEndian, bigEndian, ofLittleEndian_littleEndian]

/-! ## Numbers of any size -/

/-- The base-256 digits of `n`, least significant first; zero has one digit. -/
def digits (n : Nat) : Bytes :=
  if n < 256 then [UInt8.ofNat n]
  else UInt8.ofNat n :: digits (n / 256)
termination_by n

/-- The shortest big-endian form of `n`; zero is a single zero byte. -/
def magnitude (n : Nat) : Bytes :=
  (digits n).reverse

/-- Digits without a fixed width are those of the number. -/
theorem ofLittleEndian_digits (n : Nat) : ofLittleEndian (digits n) = n := by
  fun_induction digits n with
  | case1 n h => simp [ofLittleEndian]; omega
  | case2 n _ ih => rw [ofLittleEndian, ih]; simp; omega

/-- So are the bytes of a magnitude, highest first. -/
theorem ofBigEndian_magnitude (n : Nat) : ofBigEndian (magnitude n) = n := by
  simp [ofBigEndian, magnitude, ofLittleEndian_digits]

/-! ## Splitting -/

/-- The first `n` bytes and the rest, if there are that many. -/
def take? (n : Nat) (bytes : Bytes) : Option (Bytes × Bytes) :=
  if n ≤ bytes.length then some (bytes.take n, bytes.drop n) else none

/-- Taking the front of two parts gives both parts back. -/
theorem take?_append (front rest : Bytes) :
    take? front.length (front ++ rest) = some (front, rest) := by
  simp [take?]

end Bytes
end StructuredStore
