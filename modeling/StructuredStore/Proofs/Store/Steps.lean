import StructuredStore.Proofs.Engine.Outcome
import StructuredStore.Proofs.Frame.RoundTrip
import StructuredStore.Proofs.Key.Ownership
import StructuredStore.Store.Basic

/-!
# Reading and writing frames

What the shared steps of all operations do to a table without failures: they
find a frame or say why not, and they write a frame or nothing.

Main results:

- `ends_readAs`, `run_readAs`: the frame at a key that has to be of a kind.
- `ends_write`, `run_write`: a written frame, or a table left as it was.
-/

namespace StructuredStore

/-! ## Frames in tables -/

/-- Whether the table holds nothing that belongs to the logical key. -/
def Table.Vacant (table : Table) (key : String) : Prop :=
  ∀ physical, Key.Owns key physical → table.get? physical = none

/-- Nothing belongs to a key exactly if nothing lies at it and under its stems. -/
theorem Table.vacant_iff (table : Table) (key : String) :
    table.Vacant key ↔ table.get? (Key.ofText key) = none ∧
      ∀ marker, table.countUnder (Key.itemStem key marker) = 0 := by
  simp only [Table.countUnder_eq_zero_iff]
  constructor
  · intro h
    exact ⟨h _ (.self key), fun marker physical hstem => h physical (.under hstem)⟩
  · rintro ⟨hself, hstems⟩ physical (rfl | ⟨marker, hstem⟩)
    · exact hself
    · exact hstems marker physical hstem

/-- Whether the table holds a frame at the key that is read as the given one. -/
def Table.HasFrame (table : Table) (key : Bytes) (frame : Frame) : Prop :=
  ∃ bytes, table.get? key = some bytes ∧ Frame.decode bytes = .ok frame

namespace Table.HasFrame

variable {table : Table} {key : Bytes} {frame : Frame}

/-- A key that shows a frame has a row. -/
theorem get?_ne_none (h : table.HasFrame key frame) : table.get? key ≠ none := by
  obtain ⟨bytes, hget, _⟩ := h
  rw [hget]
  exact Option.some_ne_none bytes

/-- Showing a frame is decoding the row to it. -/
theorem iff_map_decode (table : Table) (key : Bytes) (frame : Frame) :
    table.HasFrame key frame ↔ (table.get? key).map Frame.decode = some (.ok frame) := by
  simp [HasFrame, Option.map_eq_some_iff]

instance : Decidable (table.HasFrame key frame) :=
  decidable_of_iff _ (iff_map_decode table key frame).symm

/-- A key holds one frame at most. -/
theorem unique {other : Frame} (h : table.HasFrame key frame)
    (hother : table.HasFrame key other) : frame = other := by
  obtain ⟨bytes, hget, hdecode⟩ := h
  obtain ⟨bytes', hget', hdecode'⟩ := hother
  rw [hget] at hget'
  cases hget'
  rw [hdecode] at hdecode'
  cases hdecode'
  rfl

/-- What a key shows is read off its own row. -/
theorem congr {other : Table} (h : table.HasFrame key frame)
    (heq : other.get? key = table.get? key) : other.HasFrame key frame := by
  obtain ⟨bytes, hget, hdecode⟩ := h
  exact ⟨bytes, heq.trans hget, hdecode⟩

/-- The expiry of a frame in a table is read back as it is. -/
theorem asStored_expireAt (h : table.HasFrame key frame) :
    Frame.asStored frame.expireAt = frame.expireAt := by
  obtain ⟨bytes, _, hdecode⟩ := h
  rw [Frame.expireAt_of_decode hdecode, Frame.asStored_storedExpiry]

/-- The value of a frame in a table is storable. -/
theorem storable (h : table.HasFrame key frame) : frame.value.Storable := by
  obtain ⟨bytes, _, hdecode⟩ := h
  exact Frame.storable_of_decode hdecode

/-- A written frame with a storable value is found where it was written. -/
theorem insert {value : Value} {expireAt : Option Instant} {bytes : Bytes} (table : Table)
    (key : Bytes) (h : Frame.encode ⟨value, expireAt⟩ = .ok bytes) (hvalue : value.Storable)
    (hexpireAt : Frame.asStored expireAt = expireAt) :
    (table.insert key bytes).HasFrame key ⟨value, expireAt⟩ := by
  refine ⟨bytes, get?_insert_self table key bytes, ?_⟩
  rw [Frame.decode_encode h hvalue, hexpireAt]

end Table.HasFrame

namespace Frame

/-- An expiry that is read back as it is can be written. -/
theorem expiryField_of_asStored {expireAt : Option Instant} (h : asStored expireAt = expireAt) :
    ∃ field, expiryField expireAt = .ok field := by
  cases expireAt with
  | none => exact ⟨_, rfl⟩
  | some instant =>
      simp only [asStored, Option.bind_some] at h
      cases hcount : instant.toInt64? with
      | none => simp [hcount] at h
      | some count => exact ⟨int64Field count, by simp only [expiryField, instantField, hcount]⟩

/-- A value that has a payload can be written with such an expiry. -/
theorem exists_encode {value : Value} {expireAt : Option Instant} {body : Bytes}
    (hpayload : payload value = .ok body) (h : asStored expireAt = expireAt) :
    ∃ bytes, encode ⟨value, expireAt⟩ = .ok bytes := by
  obtain ⟨field, hfield⟩ := expiryField_of_asStored h
  exact ⟨_, encode_eq_ok_iff.mpr ⟨body, field, hpayload, hfield, rfl⟩⟩

end Frame

namespace Store

open Engine

variable {table : Table} {key : Bytes} {frame : Frame}

/-! ## Reading -/

theorem run_lift_ok {α : Type} {result : Except DataError α} {a : α} (h : result = .ok a)
    (engine : Engine) : (lift result).run engine = (.ok a, engine) := by
  rw [h]
  rfl

theorem run_lift_error {α : Type} {result : Except DataError α} {fault : DataError}
    (h : result = .error fault) (engine : Engine) :
    (lift result).run engine = (.error (.ofData fault), engine) := by
  rw [h]
  rfl

/-- Reading a key without a row gives nothing. -/
theorem run_read_none (h : table.get? key = none) :
    (read key).run (ofTable table) = (.ok none, ofTable table) := by
  rw [read, run_bind_ok (run_get table key), h]
  rfl

/-- Reading a key gives the frame it shows. -/
theorem run_read (h : table.HasFrame key frame) :
    (read key).run (ofTable table) = (.ok (some frame), ofTable table) := by
  obtain ⟨bytes, hget, hdecode⟩ := h
  rw [read, run_bind_ok (run_get table key), hget]
  simp only [hdecode]
  rfl

/-- Reading a row that does not decode is refused with the decoder's fault. -/
theorem run_read_error {bytes : Bytes} {fault : DataError} (hget : table.get? key = some bytes)
    (hdecode : Frame.decode bytes = .error fault) :
    (read key).run (ofTable table) = (.error (.ofData fault), ofTable table) := by
  rw [read, run_bind_ok (run_get table key), hget]
  exact run_bind_error (run_lift_error hdecode _)

/-- A read finds nothing, or a frame, or fails. -/
theorem ends_read (table : Table) (key : Bytes) :
    Ends table (read key) fun outcome after => after = table ∧
      match outcome with
      | .error _ => table.get? key ≠ none ∧ ∀ frame, ¬ table.HasFrame key frame
      | .ok none => table.get? key = none
      | .ok (some frame) => table.HasFrame key frame := by
  refine .bind_run (run_get table key) ?_
  cases hget : table.get? key with
  | none => exact .pure ⟨rfl, rfl⟩
  | some bytes =>
      cases hdecode : Frame.decode bytes with
      | error fault =>
          refine .bind_error (run_lift_error hdecode _) ⟨rfl, by simp, ?_⟩
          rintro frame ⟨bytes', hget', hdecode'⟩
          rw [hget] at hget'
          cases hget'
          rw [hdecode] at hdecode'
          cases hdecode'
      | ok frame =>
          exact .bind_run (run_lift_ok hdecode _) (.pure ⟨rfl, bytes, hget, hdecode⟩)

/-- Reading what has to be there gives the frame shown. -/
theorem run_readExisting (h : table.HasFrame key frame) :
    (readExisting key).run (ofTable table) = (.ok frame, ofTable table) := by
  rw [readExisting, run_bind_ok (run_read h)]
  rfl

/-- A read of what has to be there finds a frame or fails. -/
theorem ends_readExisting (table : Table) (key : Bytes) :
    Ends table (readExisting key) fun outcome after => after = table ∧
      ∀ frame, outcome = .ok frame → table.HasFrame key frame := by
  refine .bind (ends_read table key) ?_ ?_
  · rintro e between ⟨rfl, _⟩
    exact ⟨rfl, fun _ h => by cases h⟩
  · rintro found between ⟨rfl, hfound⟩
    cases found with
    | none => exact .throw ⟨rfl, fun _ h => by cases h⟩
    | some frame => exact .pure ⟨rfl, fun _ h => by cases h; exact hfound⟩

/-- Reading a key without a row as some kind is `notFound`. -/
theorem run_readAs_none (kind : Kind) (h : table.get? key = none) :
    (readAs key kind).run (ofTable table) = (.error .notFound, ofTable table) := by
  rw [readAs, run_bind_ok (run_get table key), h]
  rfl

/-- Reading a key as the kind it shows gives its frame. -/
theorem run_readAs (h : table.HasFrame key frame) :
    (readAs key frame.value.kind).run (ofTable table) = (.ok frame, ofTable table) := by
  obtain ⟨bytes, hget, hdecode⟩ := h
  rw [readAs, run_bind_ok (run_get table key), hget]
  simp only [Frame.decodeAs_eq_ok_iff.mpr ⟨hdecode, rfl⟩]
  rfl

/-- A read of what has to be of a kind finds a frame of that kind or fails. -/
theorem ends_readAs (table : Table) (key : Bytes) (kind : Kind) :
    Ends table (readAs key kind) fun outcome after => after = table ∧
      ∀ frame, outcome = .ok frame → table.HasFrame key frame ∧ frame.value.kind = kind := by
  refine .bind_run (run_get table key) ?_
  cases hget : table.get? key with
  | none => exact .throw ⟨rfl, fun _ h => by cases h⟩
  | some bytes =>
      cases hdecode : Frame.decodeAs kind bytes with
      | error fault => exact .of_run (run_lift_error hdecode _) ⟨rfl, fun _ h => by cases h⟩
      | ok frame =>
          refine .of_run (run_lift_ok hdecode _) ⟨rfl, ?_⟩
          intro frame h
          cases h
          obtain ⟨hread, hkind⟩ := Frame.decodeAs_eq_ok_iff.mp hdecode
          exact ⟨⟨bytes, hget, hread⟩, hkind⟩

/-! ## Writing -/

/-- Writing a value that encodes puts its frame at the key. -/
theorem run_write {value : Value} {expireAt : Option Instant} {bytes : Bytes}
    (h : Frame.encode ⟨value, expireAt⟩ = .ok bytes) :
    (write key value expireAt).run (ofTable table) = (.ok (), ofTable (table.insert key bytes)) := by
  rw [write, h]
  rfl

/-- Writing a value that does not encode is refused and writes nothing. -/
theorem run_write_error {value : Value} {expireAt : Option Instant} {fault : DataError}
    (h : Frame.encode ⟨value, expireAt⟩ = .error fault) :
    (write key value expireAt).run (ofTable table) = (.error (.ofData fault), ofTable table) :=
  run_bind_error (run_lift_error h _)

/-- A frame is written, or the table is left as it was. -/
theorem ends_write (table : Table) (key : Bytes) (value : Value) (expireAt : Option Instant) :
    Ends table (write key value expireAt) fun outcome after =>
      match outcome with
      | .error _ => after = table
      | .ok _ => ∃ bytes, Frame.encode ⟨value, expireAt⟩ = .ok bytes ∧
          after = table.insert key bytes := by
  cases h : Frame.encode ⟨value, expireAt⟩ with
  | error fault => exact .of_run (run_write_error h) rfl
  | ok bytes => exact .of_run (run_write h) ⟨bytes, rfl, rfl⟩

/-! ## Creating -/

/-- A key outside the reserved prefix passes the check. -/
theorem run_requireUnreserved {key : String} (h : Key.isReserved key = false) (engine : Engine) :
    (requireUnreserved key).run engine = (.ok (), engine) := by
  rw [requireUnreserved, h]
  rfl

/-- What is there is not created again. -/
theorem run_create_taken {key : String} (h : Key.isReserved key = false)
    (hget : table.get? (Key.ofText key) ≠ none) (metadata : Value) :
    (create key metadata).run (ofTable table) = (.error .alreadyExists, ofTable table) := by
  rcases Option.ne_none_iff_exists'.mp hget with ⟨bytes, hbytes⟩
  rw [create, run_bind_ok (run_requireUnreserved h _), run_bind_ok (run_get table _), hbytes]
  rfl

/-- Metadata is created at a key that holds nothing, unless it cannot be
written. -/
theorem run_create {key : String} (h : Key.isReserved key = false)
    (hget : table.get? (Key.ofText key) = none) {metadata : Value} {bytes : Bytes}
    (hencode : Frame.encode ⟨metadata, none⟩ = .ok bytes) :
    (create key metadata).run (ofTable table) =
      (.ok (), ofTable (table.insert (Key.ofText key) bytes)) := by
  rw [create, run_bind_ok (run_requireUnreserved h _), run_bind_ok (run_get table _), hget]
  exact run_write hencode

/-- Metadata that cannot be written is not created. -/
theorem run_create_error {key : String} (h : Key.isReserved key = false)
    (hget : table.get? (Key.ofText key) = none) {metadata : Value} {fault : DataError}
    (hencode : Frame.encode ⟨metadata, none⟩ = .error fault) :
    (create key metadata).run (ofTable table) = (.error (.ofData fault), ofTable table) := by
  rw [create, run_bind_ok (run_requireUnreserved h _), run_bind_ok (run_get table _), hget]
  exact run_write_error hencode

/-- New metadata is written at a key that holds nothing, or the table is left as
it was. -/
theorem ends_create (table : Table) (key : String) (metadata : Value) :
    Ends table (create key metadata) fun outcome after =>
      match outcome with
      | .error _ => after = table
      | .ok _ => Key.isReserved key = false ∧ table.get? (Key.ofText key) = none ∧
          ∃ bytes, Frame.encode ⟨metadata, none⟩ = .ok bytes ∧
            after = table.insert (Key.ofText key) bytes := by
  cases hreserved : Key.isReserved key with
  | true =>
      have hrun : (requireUnreserved key).run (ofTable table)
          = (.error (.reservedKey key), ofTable table) := by
        rw [requireUnreserved, hreserved]
        rfl
      exact .bind_error hrun rfl
  | false =>
      by_cases hget : table.get? (Key.ofText key) = none
      · cases hencode : Frame.encode ⟨metadata, none⟩ with
        | error fault => exact .of_run (run_create_error hreserved hget hencode) rfl
        | ok bytes => exact .of_run (run_create hreserved hget hencode) ⟨rfl, hget, bytes, rfl, rfl⟩
      · exact .of_run (run_create_taken hreserved hget metadata) rfl

end Store
end StructuredStore
