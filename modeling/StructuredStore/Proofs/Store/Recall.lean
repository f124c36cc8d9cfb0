import StructuredStore.Proofs.Store.Confinement
import StructuredStore.Proofs.Store.Steps
import StructuredStore.Store.Scalar

/-!
# What is given back

A value that was accepted at a key is given back by the reads of that key if it
is storable.  The values that are not are those within a leap second: they are
written all the same, and what is read afterwards is another value or nothing.

Main results:

- `ends_set`: what it means that a value was accepted.
- `set_recalled_iff`: which accepted values are given back and can be removed.
- `set_last_second`: a leap second at the end of the day makes a key that can
  be neither read nor removed.
-/

namespace StructuredStore

/-! ## The last second of the day -/

/-- A time within the leap second that ends the day counts past the day. -/
theorem FieldReader.run_timeOfDay_last {t : TimeOfDay} (hlast : t.seconds = 86399)
    (hleap : 1000000000 ≤ t.nanos) (kind : Kind) (position : Nat) :
    timeOfDay.run ⟨kind, position, Frame.int64Field (Int64.ofNat t.nanoseconds)⟩ =
      .error (.corrupt .timeOutOfRange) := by
  have hcount := TimeOfDay.toInt_nanoseconds t
  have hnanos := t.nanos_lt
  have hsecond : ((Int64.ofNat t.nanoseconds).toInt / 1000000000).toNat % 4294967296 = 86400 := by
    omega
  have hparts : ∀ nanos, TimeOfDay.ofParts? 86400 nanos = none := by
    simp [TimeOfDay.ofParts?]
  rw [timeOfDay, StateT.run_bind, (reads_int64 _).all kind position, ok_bind]
  simp only [hsecond, hparts]
  rw [if_neg (by omega)]
  rfl

/-- Such a time is written, but cannot be read. -/
theorem Frame.decode_encode_last {t : TimeOfDay} (hlast : t.seconds = 86399)
    (hleap : 1000000000 ≤ t.nanos) {expireAt : Option Instant} {bytes : Bytes}
    (h : encode ⟨.time t, expireAt⟩ = .ok bytes) :
    decode bytes = .error (.corrupt .timeOutOfRange) := by
  have hkind := peekKind_encode h
  obtain ⟨body, expiry, hbody, hexpiry, rfl⟩ := encode_eq_ok_iff.mp h
  cases hbody
  obtain ⟨htotal, htake, _⟩ := split_frame (Value.time t).kind.tag
    (int64Field (Int64.ofNat t.nanoseconds)) (expiryField_eq_ok hexpiry).1
  have hread : (FieldReader.value .time).run ⟨.time, 0, int64Field (Int64.ofNat t.nanoseconds)⟩ =
      .error (.corrupt .timeOutOfRange) := by
    rw [FieldReader.value, StateT.run_map, FieldReader.run_timeOfDay_last hlast hleap]
    rfl
  rw [decode, hkind]
  simp only [Value.kind, decodeKind] at htotal htake ⊢
  rw [htotal, Nat.add_sub_cancel, htake, decodePayload, hread]

namespace Store

open Engine

variable {table after : Table} {key : String} {v : Value}

/-! ## Accepting a value -/

/-- An accepted value is no structure and lies at its key without expiry; a
refused one changes nothing. -/
theorem ends_set (table : Table) (key : String) (v : Value) :
    Ends table (set key v) fun outcome after =>
      match outcome with
      | .error _ => after = table
      | .ok _ => v.kind.isStructure = false ∧ ∃ bytes, Frame.encode ⟨v, none⟩ = .ok bytes ∧
          after = table.insert (Key.ofText key) bytes := by
  have hwrite : v.kind.isStructure = false →
      Ends table (write (Key.ofText key) v none) fun outcome after =>
        match outcome with
        | .error _ => after = table
        | .ok _ => v.kind.isStructure = false ∧ ∃ bytes, Frame.encode ⟨v, none⟩ = .ok bytes ∧
            after = table.insert (Key.ofText key) bytes := by
    intro hscalar
    apply (ends_write table (Key.ofText key) v none).conseq
    intro outcome after hafter
    cases outcome with
    | error e => exact hafter
    | ok _ => exact ⟨hscalar, hafter⟩
  apply Ends.guard (fun _ => rfl)
  intro hscalar
  have hscalar : v.kind.isStructure = false := by simpa using hscalar
  apply Ends.bind_readOnly (confined_requireUnreserved key) (fun _ => rfl)
  intro _
  apply Ends.bind_run (run_get table _)
  cases hget : table.get? (Key.ofText key) with
  | none => exact hwrite hscalar
  | some bytes =>
      cases hpeek : Frame.peekKind bytes with
      | error fault => exact .bind_error (run_lift_error hpeek _) rfl
      | ok found =>
          apply Ends.bind_run (run_lift_ok hpeek _)
          exact .guard (fun _ => rfl) fun _ => hwrite hscalar

/-- The frame of an accepted value. -/
theorem exists_encode_of_set
    (h : (set key v).run (ofTable table) = (.ok (), ofTable after)) :
    v.kind.isStructure = false ∧ ∃ bytes, Frame.encode ⟨v, none⟩ = .ok bytes ∧
      after = table.insert (Key.ofText key) bytes := by
  obtain ⟨outcome, left, hrun, hpost⟩ := ends_set table key v
  rw [h] at hrun
  cases hrun
  exact hpost

/-! ## Giving it back -/

theorem run_get_of_hasFrame {frame : Frame} (h : table.HasFrame (Key.ofText key) frame) :
    (get key).run (ofTable table) = (.ok frame.value, ofTable table) := by
  rw [get, run_bind_ok (run_readExisting h)]
  rfl

theorem run_getAs_of_hasFrame {frame : Frame} (h : table.HasFrame (Key.ofText key) frame) :
    (getAs key frame.value.kind).run (ofTable table) = (.ok frame.value, ofTable table) := by
  rw [getAs, run_bind_ok (run_readAs h)]
  rfl

/-- What is given back was read from a frame. -/
theorem hasFrame_of_run_get (h : (get key).run (ofTable table) = (.ok v, ofTable after)) :
    ∃ expireAt, table.HasFrame (Key.ofText key) ⟨v, expireAt⟩ := by
  obtain ⟨outcome, left, hrun, rfl, hframe⟩ := ends_readExisting table (Key.ofText key)
  cases outcome with
  | error e =>
      rw [get, run_bind_error hrun] at h
      cases h
  | ok frame =>
      rw [get, run_bind_ok hrun] at h
      cases h
      exact ⟨frame.expireAt, hframe frame rfl⟩

/-- A value that is no structure is removed with its key. -/
theorem run_delete_of_hasFrame {frame : Frame} (h : table.HasFrame (Key.ofText key) frame)
    (hscalar : frame.value.kind.isStructure = false) :
    (delete key).run (ofTable table) = (.ok (), ofTable (table.erase (Key.ofText key))) := by
  rw [delete, run_bind_ok (run_readExisting h)]
  cases hvalue : frame.value <;> simp [hvalue, Value.kind, Kind.isStructure] at hscalar <;> rfl

/-- What the store accepts it gives back, exactly if the value is storable: a
read of the key answers it, so does a read that expects its kind, and the key
can be removed. -/
theorem set_recalled_iff
    (hset : (set key v).run (ofTable table) = (.ok (), ofTable after)) :
    ((get key).run (ofTable after) = (.ok v, ofTable after) ∧
      (getAs key v.kind).run (ofTable after) = (.ok v, ofTable after) ∧
      (delete key).run (ofTable after) = (.ok (), ofTable (after.erase (Key.ofText key)))) ↔
      v.Storable := by
  obtain ⟨hscalar, bytes, hencode, rfl⟩ := exists_encode_of_set hset
  constructor
  · intro ⟨hget, _⟩
    obtain ⟨expireAt, _, _, hdecode⟩ := hasFrame_of_run_get hget
    exact Frame.storable_of_decode hdecode
  · intro hstorable
    have hframe := Table.HasFrame.insert table (Key.ofText key) hencode hstorable rfl
    have hget := run_get_of_hasFrame hframe
    have hgetAs := run_getAs_of_hasFrame hframe
    have hdelete := run_delete_of_hasFrame hframe hscalar
    exact ⟨hget, hgetAs, hdelete⟩

/-- A number is given back. -/
theorem set_recalled_number :
    ∃ after, (set "k" (.int 5)).run (ofTable .empty) = (.ok (), ofTable after) ∧
      (get "k").run (ofTable after) = (.ok (.int 5), ofTable after) ∧
      (getAs "k" .int).run (ofTable after) = (.ok (.int 5), ofTable after) ∧
      (delete "k").run (ofTable after) = (.ok (), ofTable (after.erase (Key.ofText "k"))) := by
  have hset : (set "k" (.int 5)).run (ofTable .empty) =
      (.ok (), ofTable (Table.empty.insert [0x6b] (0x01 :: 5 :: List.replicate 15 0))) := by
    rfl
  exact ⟨_, hset, (set_recalled_iff hset).mpr trivial⟩

/-! ## What is accepted and lost -/

/-- A time within the leap second that ends the day is accepted wherever a
value is, and then its key can be neither read nor removed. -/
theorem set_last_second {t : TimeOfDay} (hlast : t.seconds = 86399)
    (hleap : 1000000000 ≤ t.nanos)
    (hset : (set key (.time t)).run (ofTable table) = (.ok (), ofTable after)) :
    (get key).run (ofTable after) =
        (.error (.ofData (.corrupt .timeOutOfRange)), ofTable after) ∧
      (delete key).run (ofTable after) =
        (.error (.ofData (.corrupt .timeOutOfRange)), ofTable after) := by
  obtain ⟨_, bytes, hencode, rfl⟩ := exists_encode_of_set hset
  have hread := run_read_error (Table.get?_insert_self table (Key.ofText key) bytes)
    (Frame.decode_encode_last hlast hleap hencode)
  have hexisting : (readExisting (Key.ofText key)).run _ = _ := run_bind_error hread
  exact ⟨run_bind_error hexisting, run_bind_error hexisting⟩

/-- Half a second into the leap second that ends the day. -/
theorem set_last_second_lost :
    ∃ t after, (set "k" (.time t)).run (ofTable .empty) = (.ok (), ofTable after) ∧
      (get "k").run (ofTable after) =
        (.error (.ofData (.corrupt .timeOutOfRange)), ofTable after) ∧
      (delete "k").run (ofTable after) =
        (.error (.ofData (.corrupt .timeOutOfRange)), ofTable after) := by
  have hset : (set "k" (.time ⟨86399, 1500000000, by decide, by decide⟩)).run (ofTable .empty) =
      (.ok (), ofTable (Table.empty.insert [0x6b]
        (0x08 :: Frame.int64Field 86400500000000 ++ Frame.int64Field 0))) := by
    rfl
  exact ⟨_, _, hset, set_last_second rfl (by decide) hset⟩

end Store
end StructuredStore
