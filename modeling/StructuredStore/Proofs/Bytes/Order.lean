import Mathlib.Data.List.Sort
import Mathlib.Tactic.Ring
import StructuredStore.Bytes

/-!
# The order of fixed-width numbers

Big-endian byte strings of one width are ordered like the numbers they stand
for, and every byte string is the big-endian form of its number.

Main results:

- `lt_iff_ofBigEndian_lt`: bytewise order is numeric order.
- `bigEndian_ofBigEndian`: writing the number of a byte string gives the byte
  string back.
-/

namespace StructuredStore.Bytes

/-! ## The number of a byte string -/

/-- The number of a concatenation, least significant part first. -/
theorem ofLittleEndian_append (low high : Bytes) :
    ofLittleEndian (low ++ high) =
      ofLittleEndian low + 256 ^ low.length * ofLittleEndian high := by
  induction low with
  | nil => simp [ofLittleEndian]
  | cons byte low ih =>
      simp only [List.cons_append, ofLittleEndian, ih, List.length_cons]
      ring

/-- The first byte of a big-endian number counts for all the places behind it. -/
theorem ofBigEndian_cons (byte : UInt8) (rest : Bytes) :
    ofBigEndian (byte :: rest) = byte.toNat * 256 ^ rest.length + ofBigEndian rest := by
  simp only [ofBigEndian, List.reverse_cons, ofLittleEndian_append, List.length_reverse,
    ofLittleEndian]
  ring

/-- A number of `n` bytes lies below `256 ^ n`. -/
theorem ofBigEndian_lt (bytes : Bytes) : ofBigEndian bytes < 256 ^ bytes.length := by
  induction bytes with
  | nil => simp [ofBigEndian, ofLittleEndian]
  | cons byte rest ih =>
      have hbyte : byte.toNat + 1 ≤ 256 := byte.toNat_lt
      calc
        ofBigEndian (byte :: rest)
            = byte.toNat * 256 ^ rest.length + ofBigEndian rest := ofBigEndian_cons byte rest
        _ < (byte.toNat + 1) * 256 ^ rest.length := by rw [Nat.succ_mul]; omega
        _ ≤ 256 * 256 ^ rest.length := Nat.mul_le_mul_right _ hbyte
        _ = 256 ^ (byte :: rest).length := by rw [List.length_cons]; ring

/-- Bytes stand for a number below the power of 256 for their length. -/
theorem ofLittleEndian_lt (bytes : Bytes) : ofLittleEndian bytes < 256 ^ bytes.length := by
  simpa [ofBigEndian] using ofBigEndian_lt bytes.reverse

/-! ## Order -/

/-- Two numbers whose leading digits differ are ordered like these digits. -/
theorem lt_of_leading_lt {a b low base : Nat} (high : Nat) (hlow : low < base) (h : a < b) :
    a * base + low < b * base + high := by
  calc
    a * base + low < (a + 1) * base := by rw [Nat.succ_mul]; omega
    _ ≤ b * base := Nat.mul_le_mul_right _ h
    _ ≤ b * base + high := Nat.le_add_right _ _

/-- Byte strings of one length are ordered like the numbers they stand for. -/
theorem lt_iff_ofBigEndian_lt {a b : Bytes} (hlength : a.length = b.length) :
    a < b ↔ ofBigEndian a < ofBigEndian b := by
  induction a generalizing b with
  | nil =>
      cases b with
      | nil => simp
      | cons y b => simp at hlength
  | cons x a ih =>
      cases b with
      | nil => simp at hlength
      | cons y b =>
          have hlength : a.length = b.length := by simpa using hlength
          have ha := ofBigEndian_lt a
          have hb := ofBigEndian_lt b
          rw [List.cons_lt_cons_iff, ofBigEndian_cons, ofBigEndian_cons, ih hlength]
          rw [hlength] at ha ⊢
          constructor
          · rintro (hlt | ⟨rfl, hlt⟩)
            · exact lt_of_leading_lt _ ha (UInt8.lt_iff_toNat_lt.mp hlt)
            · omega
          · intro hlt
            rcases Nat.lt_trichotomy x.toNat y.toNat with hxy | hxy | hxy
            · exact Or.inl (UInt8.lt_iff_toNat_lt.mpr hxy)
            · rw [hxy] at hlt
              exact Or.inr ⟨UInt8.toNat_inj.mp hxy, by omega⟩
            · have hback := lt_of_leading_lt (ofBigEndian a) hb hxy
              omega

/-! ## Writing a number back -/

/-- The little-endian form of the number of a byte string is that byte string. -/
theorem littleEndian_ofLittleEndian (bytes : Bytes) :
    littleEndian bytes.length (ofLittleEndian bytes) = bytes := by
  induction bytes with
  | nil => rfl
  | cons byte rest ih =>
      have hbyte : byte.toNat < 256 := byte.toNat_lt
      have hhead : UInt8.ofNat (byte.toNat + 256 * ofLittleEndian rest) = byte := by
        apply UInt8.toNat_inj.mp
        simp only [UInt8.toNat_ofNat']
        omega
      have htail : (byte.toNat + 256 * ofLittleEndian rest) / 256 = ofLittleEndian rest := by
        omega
      simp only [List.length_cons, littleEndian, ofLittleEndian]
      rw [hhead, htail, ih]

/-- The big-endian form of the number of a byte string is that byte string. -/
theorem bigEndian_ofBigEndian (bytes : Bytes) :
    bigEndian bytes.length (ofBigEndian bytes) = bytes := by
  have h := littleEndian_ofLittleEndian bytes.reverse
  rw [List.length_reverse] at h
  rw [bigEndian, ofBigEndian, h, List.reverse_reverse]

end StructuredStore.Bytes
