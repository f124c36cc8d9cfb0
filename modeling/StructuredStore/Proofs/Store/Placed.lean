import StructuredStore.Proofs.Key.Selector
import StructuredStore.Proofs.Store.Tally

/-!
# Items at places

A structure keeps each of its values in an item of its own, at a place that is
computed from what the value is kept for: a text or an instant.  As long as
different things have different places under the stem of the structure, reads,
writes and scans of the items are those of a function that takes the things to
their values.

Main results:

- `Placed.insert`, `Placed.erase`: what a write does to the values at their places.
- `Placed.rowsUnder_eq`, `Placed.mapM_rows`: what a scan meets, and what is read
  from it.
- `Placed.ends_putItem`, `Placed.ends_putNewItem`, `Placed.ends_takeItem`: one item
  more or less, with the count that is answered.
-/

namespace StructuredStore.Store

open Engine

variable {ι : Type}

/-- Whether different things have different places, all of them under the stem of
a structure. -/
structure Places (key : String) (marker : Key.Marker) (place : ι → Bytes) : Prop where
  under : ∀ i, Key.itemStem key marker <+: place i
  injective : ∀ {i j}, place i = place j → i = j

/-- Whether the items of a structure are the given values at their places. -/
structure Placed (table : Table) (key : String) (marker : Key.Marker) (place : ι → Bytes)
    (values : ι → Option Value) : Prop where
  places : Places key marker place
  at_place : ∀ i, (table.get? (place i)).map Frame.decode =
    (values i).map fun value => .ok ⟨value, none⟩
  is_place : ∀ physical, Key.itemStem key marker <+: physical → table.get? physical ≠ none →
    ∃ i, physical = place i

namespace Placed

variable {table : Table} {key : String} {marker : Key.Marker} {place : ι → Bytes}
  {values : ι → Option Value} {i : ι} {value : Value} {item : Bytes} {ordered : List ι}

/-! ## Point reads -/

theorem isSome_get? (h : Placed table key marker place values) (i : ι) :
    (table.get? (place i)).isSome = (values i).isSome := by
  have hisSome := congrArg Option.isSome (h.at_place i)
  rwa [Option.isSome_map, Option.isSome_map] at hisSome

theorem isNone_get? (h : Placed table key marker place values) (i : ι) :
    (table.get? (place i)).isNone = (values i).isNone := by
  rw [← Option.not_isSome, ← Option.not_isSome, h.isSome_get?]

theorem get?_eq_none_iff (h : Placed table key marker place values) :
    table.get? (place i) = none ↔ values i = none := by
  rw [← Option.isNone_iff_eq_none, ← Option.isNone_iff_eq_none, h.isNone_get?]

theorem hasFrame (h : Placed table key marker place values) (hvalue : values i = some value) :
    table.HasFrame (place i) ⟨value, none⟩ := by
  rw [Table.HasFrame.iff_map_decode, h.at_place, hvalue]
  rfl

/-! ## Writes -/

/-- The items depend on no rows but their own. -/
theorem congr {other : Table} (h : Placed table key marker place values)
    (hsame : ∀ physical, Key.itemStem key marker <+: physical →
      other.get? physical = table.get? physical) : Placed other key marker place values := by
  refine ⟨h.places, fun i => ?_, fun physical hstem hget => ?_⟩
  · rw [hsame _ (h.places.under i), h.at_place]
  · rw [hsame physical hstem] at hget
    exact h.is_place physical hstem hget

/-- No items are no values. -/
theorem of_countUnder_eq_zero (hplaces : Places key marker place)
    (h : table.countUnder (Key.itemStem key marker) = 0) :
    Placed table key marker place fun _ => none := by
  rw [Table.countUnder_eq_zero_iff] at h
  refine ⟨hplaces, fun i => ?_, fun physical hstem hget => absurd (h physical hstem) hget⟩
  rw [h _ (hplaces.under i)]
  rfl

/-- The metadata is no item. -/
theorem insert_ofText (h : Placed table key marker place values) (contents : Bytes) :
    Placed (table.insert (Key.ofText key) contents) key marker place values := by
  apply h.congr
  intro physical hstem
  exact Table.get?_insert_of_ne table contents (Tallied.ne_ofText hstem).symm

section Updates

variable [DecidableEq ι]

/-- A written item is the value at its place. -/
theorem insert (h : Placed table key marker place values) (i : ι)
    (hdecode : Frame.decode item = .ok ⟨value, none⟩) :
    Placed (table.insert (place i) item) key marker place
      (Function.update values i (some value)) := by
  refine ⟨h.places, fun j => ?_, fun physical hstem hget => ?_⟩
  · rw [Table.get?_insert, Function.update_apply]
    by_cases hsame : j = i
    · rw [if_pos (by rw [hsame]), if_pos hsame, Option.map_some, hdecode]
      rfl
    · have hplace : place i ≠ place j := fun heq => hsame (h.places.injective heq).symm
      rw [if_neg hplace, if_neg hsame, h.at_place]
  · by_cases hplace : place i = physical
    · exact ⟨i, hplace.symm⟩
    · rw [Table.get?_insert_of_ne table item hplace] at hget
      exact h.is_place physical hstem hget

/-- A removed item leaves no value at its place. -/
theorem erase (h : Placed table key marker place values) (i : ι) :
    Placed (table.erase (place i)) key marker place (Function.update values i none) := by
  refine ⟨h.places, fun j => ?_, fun physical hstem hget => ?_⟩
  · rw [Table.get?_erase, Function.update_apply]
    by_cases hsame : j = i
    · rw [if_pos (by rw [hsame]), if_pos hsame]
      rfl
    · have hplace : place i ≠ place j := fun heq => hsame (h.places.injective heq).symm
      rw [if_neg hplace, if_neg hsame, h.at_place]
  · by_cases hplace : place i = physical
    · exact ⟨i, hplace.symm⟩
    · rw [Table.get?_erase_of_ne table hplace] at hget
      exact h.is_place physical hstem hget

end Updates

/-! ## Scans -/

/-- A scan meets one row for each thing with a value, in the order of the places. -/
theorem rowsUnder_eq (h : Placed table key marker place values)
    (hsorted : ordered.Pairwise fun i j => place i < place j)
    (hordered : ∀ i, i ∈ ordered ↔ values i ≠ none) :
    table.rowsUnder (Key.itemStem key marker) =
      ordered.map fun i => (place i, (table.get? (place i)).getD []) := by
  apply Table.rowsUnder_eq_of_sorted
  · rw [Rows.Sorted, List.pairwise_map]
    exact hsorted
  · rintro ⟨physical, contents⟩
    rw [List.mem_map]
    constructor
    · rintro ⟨i, hi, heq⟩
      obtain ⟨rfl, rfl⟩ := Prod.mk.inj heq
      refine ⟨?_, h.places.under i⟩
      have hsome : table.get? (place i) ≠ none := by
        rw [ne_eq, h.get?_eq_none_iff]
        exact (hordered i).mp hi
      obtain ⟨found, hfound⟩ := Option.ne_none_iff_exists'.mp hsome
      rw [hfound]
      rfl
    · rintro ⟨hget, hstem⟩
      have hsome : table.get? physical ≠ none := by
        rw [hget]
        exact Option.some_ne_none contents
      obtain ⟨i, rfl⟩ := h.is_place physical hstem hsome
      refine ⟨i, (hordered i).mpr ?_, by rw [hget]; rfl⟩
      rwa [ne_eq, h.get?_eq_none_iff] at hsome

/-- There are as many items as things with a value. -/
theorem countUnder_eq (h : Placed table key marker place values)
    (hsorted : ordered.Pairwise fun i j => place i < place j)
    (hordered : ∀ i, i ∈ ordered ↔ values i ≠ none) :
    table.countUnder (Key.itemStem key marker) = ordered.length := by
  rw [Table.countUnder, h.rowsUnder_eq hsorted hordered, List.length_map]

/-- What is read from rows, one by one, is what is known of the things at their
places. -/
theorem mapM_rows {α : Type} (h : Placed table key marker place values)
    (hordered : ∀ i ∈ ordered, values i ≠ none) {read : Row → Except DataError α}
    {entry : ι → Option α}
    (hread : ∀ i value contents, values i = some value →
      Frame.decode contents = .ok ⟨value, none⟩ →
      ∃ a, entry i = some a ∧ read (place i, contents) = .ok a) :
    (ordered.map fun i => (place i, (table.get? (place i)).getD [])).mapM read =
      .ok (ordered.filterMap entry) := by
  induction ordered with
  | nil => rfl
  | cons i ordered ih =>
      obtain ⟨hi, hrest⟩ := List.forall_mem_cons.mp hordered
      obtain ⟨value, hvalue⟩ := Option.ne_none_iff_exists'.mp hi
      obtain ⟨contents, hget, hdecode⟩ := h.hasFrame hvalue
      obtain ⟨a, hentry, ha⟩ := hread i value contents hvalue hdecode
      rw [List.map_cons, List.mapM_cons, hget, Option.getD_some, ha, ih hrest,
        List.filterMap_cons_some hentry]
      rfl

/-! ## Steps -/

section Steps

variable [DecidableEq ι] {metadata : UInt64 → Value} {count : UInt64}
  {expireAt : Option Instant}

/-- A value is written at a place, and the count of items answered. -/
theorem ends_putItem (h : Placed table key marker place values)
    (htallied : Tallied table key marker metadata count expireAt)
    (hroom : count.toNat < 18446744073709551615) (i : ι)
    (hencode : Frame.encode ⟨value, none⟩ = .ok item)
    (hdecode : Frame.decode item = .ok ⟨value, none⟩) :
    Ends table
      (do
        let known := (← Engine.get (place i)).isSome
        write (place i) value none
        if known then return count
        let count ← increment count
        write (Key.ofText key) (metadata count) expireAt
        return count)
      fun outcome after => ∃ next : UInt64, outcome = .ok next ∧ next.toNat ≤ count.toNat + 1 ∧
        Tallied after key marker metadata next expireAt ∧
        Placed after key marker place (Function.update values i (some value)) := by
  have hstem := h.places.under i
  refine .bind_run (run_get table _) (.bind_run (run_write hencode) ?_)
  cases hget : table.get? (place i) with
  | some contents =>
      refine .pure ⟨count, rfl, by omega, htallied.overwrite hstem ?_ item, h.insert i hdecode⟩
      rw [hget]
      exact Option.some_ne_none contents
  | none =>
      obtain ⟨contents, hcontents⟩ := htallied.exists_encode (count + 1)
      refine .bind_run (run_increment hroom _) (.bind_run (run_write hcontents) (.pure ?_))
      refine ⟨count + 1, rfl, ?_, htallied.add hstem hget hroom hcontents,
        (h.insert i hdecode).insert_ofText contents⟩
      rw [toNat_add_one hroom]

/-- A value is written at a place that has none, and the count of items
answered. -/
theorem ends_putNewItem (h : Placed table key marker place values)
    (htallied : Tallied table key marker metadata count expireAt)
    (hroom : count.toNat < 18446744073709551615) (i : ι)
    (hencode : Frame.encode ⟨value, none⟩ = .ok item)
    (hdecode : Frame.decode item = .ok ⟨value, none⟩) :
    Ends table
      (do
        if (← Engine.get (place i)).isSome then return count
        write (place i) value none
        let count ← increment count
        write (Key.ofText key) (metadata count) expireAt
        return count)
      fun outcome after => ∃ next : UInt64, outcome = .ok next ∧ next.toNat ≤ count.toNat + 1 ∧
        Tallied after key marker metadata next expireAt ∧
        if (values i).isSome then after = table
        else Placed after key marker place (Function.update values i (some value)) := by
  have hstem := h.places.under i
  refine .bind_run (run_get table _) ?_
  rw [← h.isSome_get?]
  cases hget : table.get? (place i) with
  | some contents => exact .pure ⟨count, rfl, by omega, htallied, rfl⟩
  | none =>
      obtain ⟨contents, hcontents⟩ := htallied.exists_encode (count + 1)
      refine .bind_run (run_write hencode) (.bind_run (run_increment hroom _)
        (.bind_run (run_write hcontents) (.pure ?_)))
      refine ⟨count + 1, rfl, ?_, htallied.add hstem hget hroom hcontents,
        (h.insert i hdecode).insert_ofText contents⟩
      rw [toNat_add_one hroom]

/-- The value at a place is removed, if there is one, and the count of items
answered. -/
theorem ends_takeItem (h : Placed table key marker place values)
    (htallied : Tallied table key marker metadata count expireAt) (i : ι) :
    Ends table
      (do
        if (← Engine.get (place i)).isNone then return count
        Engine.delete (place i)
        write (Key.ofText key) (metadata (decrement count)) expireAt
        return decrement count)
      fun outcome after => ∃ next : UInt64, outcome = .ok next ∧ next.toNat ≤ count.toNat ∧
        Tallied after key marker metadata next expireAt ∧
        if (values i).isNone then after = table
        else Placed after key marker place (Function.update values i none) := by
  have hstem := h.places.under i
  refine .bind_run (run_get table _) ?_
  rw [← h.isNone_get?]
  cases hget : table.get? (place i) with
  | none => exact .pure ⟨count, rfl, by omega, htallied, rfl⟩
  | some found =>
      obtain ⟨contents, hcontents⟩ := htallied.exists_encode (decrement count)
      have hless := toNat_decrement count
      have hsome : table.get? (place i) ≠ none := by
        rw [hget]
        exact Option.some_ne_none found
      refine .bind_run (run_delete table _) (.bind_run (run_write hcontents) (.pure ?_))
      exact ⟨decrement count, rfl, by omega, htallied.remove hstem hsome hcontents,
        (h.erase i).insert_ofText contents⟩

end Steps
end Placed
end StructuredStore.Store
