import Mathlib.Tactic.Common
import StructuredStore.Frame.Decode

/-!
# Fields of frames

A field reader reads a field back if, in front of whatever follows, it takes
exactly the bytes of the field and answers what the field was written for.
Readers of composite payloads read back the concatenation of their fields.

Main results:

- `Reads.bind`, `Reads.map`: how readers of several fields compose.
- `reads_int64`, `reads_prefixed`, `reads_text` and their like: every field of
  a frame is read back.
-/

namespace StructuredStore

/-- A pure step that succeeds hands its result on. -/
@[simp]
theorem ok_bind {ε α β : Type} (a : α) (next : α → Except ε β) :
    (Except.ok a >>= next) = next a := rfl

theorem pure_eq_ok {ε α : Type} (a : α) : (pure a : Except ε α) = .ok a := rfl

/-- A sequence of pure steps succeeds exactly if each of them does. -/
theorem bind_eq_ok_iff {ε α β : Type} {first : Except ε α} {next : α → Except ε β} {b : β} :
    (first >>= next) = .ok b ↔ ∃ a, first = .ok a ∧ next a = .ok b := by
  cases first with
  | error e => simp [bind, Except.bind]
  | ok a => simp [bind, Except.bind]

namespace FieldReader

variable {α β : Type}

/-! ## Reading a field back -/

/-- Whether the reader takes exactly the field off the front of any payload and
answers `a`. -/
def Reads (reader : FieldReader α) (field : Bytes) (a : α) : Prop :=
  ∀ kind position rest,
    reader.run ⟨kind, position, field ++ rest⟩ = .ok (a, ⟨kind, position + field.length, rest⟩)

/-- Whether the reader takes a whole payload and answers `a`. -/
def ReadsAll (reader : FieldReader α) (body : Bytes) (a : α) : Prop :=
  ∀ kind position,
    reader.run ⟨kind, position, body⟩ = .ok (a, ⟨kind, position + body.length, []⟩)

/-- A reader that reads a field also reads a payload that is just the field. -/
theorem Reads.all {reader : FieldReader α} {field : Bytes} {a : α} (h : Reads reader field a) :
    ReadsAll reader field a := by
  intro kind position
  simpa using h kind position []

/-- An answer reads nothing. -/
theorem Reads.pure (a : α) : Reads (pure a : FieldReader α) [] a := by
  intro kind position rest
  rfl

/-- Two readers one after the other read back two fields one after the other. -/
theorem Reads.bind {first : FieldReader α} {next : α → FieldReader β} {front back : Bytes}
    {a : α} {b : β} (hfirst : Reads first front a) (hnext : Reads (next a) back b) :
    Reads (first >>= next) (front ++ back) b := by
  intro kind position rest
  have hrun := hfirst kind position (back ++ rest)
  rw [StateT.run_bind, List.append_assoc, hrun, List.length_append, ← Nat.add_assoc]
  exact hnext kind (position + front.length) rest

/-- The last reader of a payload may take all that is left. -/
theorem Reads.bind_all {first : FieldReader α} {next : α → FieldReader β} {front back : Bytes}
    {a : α} {b : β} (hfirst : Reads first front a) (hnext : ReadsAll (next a) back b) :
    ReadsAll (first >>= next) (front ++ back) b := by
  intro kind position
  rw [StateT.run_bind, hfirst kind position back, List.length_append, ← Nat.add_assoc]
  exact hnext kind (position + front.length)

/-- What is read is changed by a function. -/
theorem Reads.map {reader : FieldReader α} {field : Bytes} {a : α} (f : α → β)
    (h : Reads reader field a) : Reads (f <$> reader) field (f a) := by
  intro kind position rest
  rw [StateT.run_map, h kind position rest]
  rfl

/-- So is what all of a payload is read as. -/
theorem ReadsAll.map {reader : FieldReader α} {body : Bytes} {a : α} (f : α → β)
    (h : ReadsAll reader body a) : ReadsAll (f <$> reader) body (f a) := by
  intro kind position
  rw [StateT.run_map, h kind position]
  rfl

/-! ## Fixed-width fields -/

/-- As many bytes are taken as the field has. -/
theorem reads_take (field : Bytes) : Reads (take field.length) field field := by
  intro kind position rest
  simp [take, StateT.run, Bytes.take?_append]

/-- A number is read from its bytes, lowest first. -/
theorem reads_number {width n : Nat} (h : n < Nat.pow 256 width) :
    Reads (number width) (Bytes.littleEndian width n) n := by
  have htake := (reads_take (Bytes.littleEndian width n)).map Bytes.ofLittleEndian
  rw [Bytes.length_littleEndian, Bytes.ofLittleEndian_littleEndian] at htake
  rwa [show n % Nat.pow 256 width = n from Nat.mod_eq_of_lt h] at htake

/-- A byte is read as it is. -/
theorem reads_byte (b : UInt8) : Reads byte [b] b := by
  unfold byte
  have hread := (@reads_number 1 b.toNat b.toNat_lt).map UInt8.ofNat
  rw [UInt8.ofNat_toNat] at hread
  simpa [Bytes.littleEndian] using hread

/-- An unsigned number is read from its field. -/
theorem reads_uint64 (n : UInt64) : Reads uint64 (Frame.uint64Field n) n := by
  have hread := (@reads_number 8 n.toNat n.toNat_lt).map UInt64.ofNat
  rwa [UInt64.ofNat_toNat] at hread

/-- So is a signed one, -/
theorem reads_int64 (i : Int64) : Reads int64 (Frame.int64Field i) i := by
  have hread := (@reads_number 8 i.toUInt64.toNat i.toUInt64.toNat_lt).map
    fun n => (UInt64.ofNat n).toInt64
  rwa [UInt64.ofNat_toNat, Int64.toInt64_toUInt64] at hread

/-- and one of 32 bits. -/
theorem reads_int32 (i : Int32) :
    Reads int32 (Bytes.littleEndian 4 i.toUInt32.toNat) i := by
  have hread := (@reads_number 4 i.toUInt32.toNat i.toUInt32.toNat_lt).map
    fun n => (UInt32.ofNat n).toInt32
  rwa [UInt32.ofNat_toNat, Int32.toInt32_toUInt32] at hread

/-! ## Fields of variable length -/

/-- What a byte string behind its length looks like. -/
theorem prefixedField_eq_ok_iff {bytes field : Bytes} :
    Frame.prefixedField bytes = .ok field ↔
      bytes.length < 4294967296 ∧ field = Bytes.littleEndian 4 bytes.length ++ bytes := by
  unfold Frame.prefixedField
  split
  · rename_i hlength
    simp [hlength, eq_comm]
  · rename_i hlength
    simp [hlength]

/-- Bytes behind their length are read as such. -/
theorem reads_prefixed {bytes field : Bytes} (h : Frame.prefixedField bytes = .ok field) :
    Reads prefixed field bytes := by
  obtain ⟨hlength, rfl⟩ := prefixedField_eq_ok_iff.mp h
  exact (@reads_number 4 _ hlength).bind (reads_take bytes)

/-- A text behind its length is read from its bytes. -/
theorem reads_text {text_ : String} {field : Bytes} (h : Frame.textField text_ = .ok field) :
    Reads text field text_ := by
  intro kind position rest
  have hrun := reads_prefixed h kind position rest
  rw [text, StateT.run_bind, hrun, ok_bind, Utf8.decode?_encode]
  rfl

/-! ## Composite payloads -/

/-- A truth value is read from zero or one. -/
theorem reads_bool (b : Bool) : Reads bool [if b then 1 else 0] b := by
  have hread := reads_byte (if b then 1 else 0)
  intro kind position rest
  simp only [bool, StateT.run_bind]
  rw [hread kind position rest]
  cases b <;> rfl

/-- What remains of a payload is all of it at the start. -/
theorem readsAll_remaining (body : Bytes) : ReadsAll remaining body body := by
  intro kind position
  rfl

/-- Every number has a digit in bytes, too. -/
theorem digits_ne_nil (n : Nat) : Bytes.digits n ≠ [] := by
  fun_cases Bytes.digits n <;> simp

/-- A number of any size is read from its sign and its magnitude. -/
theorem readsAll_bigInt (i : Int) :
    ReadsAll bigInt ((if i < 0 then 1 else 0) :: Bytes.magnitude i.natAbs) i := by
  have hnonempty : Bytes.magnitude i.natAbs ≠ [] := by
    simp [Bytes.magnitude, digits_ne_nil]
  have hvalue := Bytes.ofBigEndian_magnitude i.natAbs
  generalize Bytes.magnitude i.natAbs = body at hnonempty hvalue
  by_cases hneg : i < 0
  · rw [if_pos hneg]
    refine (reads_byte 1).bind_all ?_
    intro kind position
    have hsigned : i = -(i.natAbs : Int) := by omega
    generalize i.natAbs = magnitude at hvalue hsigned
    subst hsigned
    simp [readsAll_remaining body kind position, hnonempty, hvalue, pure_eq_ok]
  · rw [if_neg hneg]
    refine (reads_byte 0).bind_all ?_
    intro kind position
    have hsigned : i = (i.natAbs : Int) := by omega
    generalize i.natAbs = magnitude at hvalue hsigned
    subst hsigned
    simp [readsAll_remaining body kind position, hnonempty, hvalue, pure_eq_ok]

end FieldReader
end StructuredStore
