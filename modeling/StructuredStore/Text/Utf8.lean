import StructuredStore.Bytes

/-!
# Text as bytes

Keys, fields, members and text values are stored as UTF-8.

Main results:

- `decode?_encode`, `decode?_eq_some_iff`: a byte string is read as a text
  exactly when it is that text's encoding.
- `encode_injective`: different texts have different encodings.
-/

namespace StructuredStore.Utf8

/-- The UTF-8 bytes of a text. -/
def encode (text : String) : Bytes :=
  text.toUTF8.data.toList

/-- The text whose UTF-8 bytes are given, if they are well formed: no overlong
forms, no surrogates, nothing above the last code point. -/
def decode? (bytes : Bytes) : Option String :=
  String.fromUTF8? ⟨bytes.toArray⟩

/-- Different texts have different bytes. -/
theorem encode_injective {a b : String} (h : encode a = encode b) : a = b := by
  apply String.toByteArray_inj.mp
  apply ByteArray.ext
  exact Array.toList_inj.mp h

/-- Bytes are decoded to a text exactly if they are its encoding. -/
theorem decode?_eq_some_iff {bytes : Bytes} {text : String} :
    decode? bytes = some text ↔ encode text = bytes := by
  unfold decode? String.fromUTF8?
  constructor
  · intro h
    split at h
    · cases h
      rfl
    · cases h
  · rintro rfl
    have hbytes : (⟨(encode text).toArray⟩ : ByteArray) = text.toByteArray := by
      apply ByteArray.ext
      simp [encode, String.toUTF8]
    simp only [hbytes, text.isValidUTF8, dite_true]
    rfl

/-- An encoded text is decoded again. -/
@[simp]
theorem decode?_encode (text : String) : decode? (encode text) = some text :=
  decode?_eq_some_iff.mpr rfl

/-- Decoded bytes are those of the text. -/
theorem encode_of_decode? {bytes : Bytes} {text : String}
    (h : decode? bytes = some text) : encode text = bytes :=
  decode?_eq_some_iff.mp h

end StructuredStore.Utf8
