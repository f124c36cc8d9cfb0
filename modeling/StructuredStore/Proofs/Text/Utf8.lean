import Mathlib.Tactic.Common
import StructuredStore.Text.Utf8

/-!
# Text as bytes, character by character

The bytes of a text are those of its characters one after the other, and a
byte below 128 stands for the character of that code and for no part of any
other one.

Main results:

- `encode_append`: the bytes of a concatenation.
- `ascii_mem_encode_iff`: a text has the byte of a character below 128 exactly
  if it has that character.
-/

namespace StructuredStore.Utf8

/-- The bytes of a text are those of its characters. -/
theorem encode_eq_flatMap (text : String) :
    encode text = text.toList.flatMap String.utf8EncodeChar := by
  rw [encode, String.toUTF8, ← String.utf8Encode_toList, List.utf8Encode,
    List.toList_data_toByteArray]

/-- Texts are encoded one after the other. -/
@[simp]
theorem encode_append (a b : String) : encode (a ++ b) = encode a ++ encode b := by
  simp [encode_eq_flatMap]

/-- A character below 128 is one byte, its code. -/
theorem utf8EncodeChar_of_lt {c : Char} (h : c.toNat < 128) :
    String.utf8EncodeChar c = [UInt8.ofNat c.toNat] := by
  have hcode : c.val.toNat ≤ 127 := Nat.le_of_lt_succ h
  unfold String.utf8EncodeChar
  rw [if_pos hcode]
  rfl

/-- A byte below 128 is no part of a character of several bytes. -/
theorem ascii_mem_utf8EncodeChar_iff {byte : UInt8} (h : byte.toNat < 128) (c : Char) :
    byte ∈ String.utf8EncodeChar c ↔ c.toNat = byte.toNat := by
  have hval : c.toNat = c.val.toNat := rfl
  rw [hval]
  fun_cases String.utf8EncodeChar c <;>
    simp only [List.mem_cons, List.not_mem_nil, or_false, ← UInt8.toNat_inj,
      UInt8.toNat_ofNat'] <;> omega

/-- A text has the byte of a character below 128 exactly if it has that
character. -/
theorem ascii_mem_encode_iff {c : Char} (h : c.toNat < 128) (text : String) :
    UInt8.ofNat c.toNat ∈ encode text ↔ c ∈ text.toList := by
  have hbyte : (UInt8.ofNat c.toNat).toNat = c.toNat := by
    rw [UInt8.toNat_ofNat']
    omega
  rw [encode_eq_flatMap, List.mem_flatMap]
  constructor
  · rintro ⟨d, hd, hmem⟩
    rw [ascii_mem_utf8EncodeChar_iff (by omega), hbyte] at hmem
    have heq : d = c := by rw [← Char.ofNat_toNat d, hmem, Char.ofNat_toNat]
    rwa [← heq]
  · intro hc
    exact ⟨c, hc, (ascii_mem_utf8EncodeChar_iff (by omega) c).mpr hbyte.symm⟩

end StructuredStore.Utf8
