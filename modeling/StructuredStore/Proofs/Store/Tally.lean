import StructuredStore.Proofs.Store.Steps

/-!
# Structures that count their items

The metadata of a map, a set, a series or a membership filter counts the rows
under its stem.  A count stays right if it is written after every change of the
number of rows, so what is proved here of the steps that all such structures
share holds of each of them.

Main results:

- `Tallied`: metadata that counts its rows.
- `ends_putItem`, `ends_putNewItem`, `ends_takeItem`: one row more or less.
- `run_removeItems`: all rows removed.
-/

namespace StructuredStore

/-! ## Metadata -/

namespace Value

/-- The marker of the items of a structure. -/
def marker? : Value → Option Key.Marker
  | .list _ => some .list
  | .map _ => some .map
  | .set _ => some .set
  | .series _ => some .series
  | .bloom _ => some .bloom
  | _ => none

/-- The number of items that metadata promises. -/
def itemCount : Value → Nat
  | .list handle => handle.length.toInt.toNat
  | .map count | .set count | .series count => count.toNat
  | .bloom handle => handle.count.toNat
  | _ => 0

/-- Metadata with another count of items. -/
def withCount (count : UInt64) : Value → Value
  | .map _ => .map count
  | .set _ => .set count
  | .series _ => .series count
  | .bloom handle => .bloom { handle with count }
  | value => value

/-- The structures are the values with items. -/
theorem isSome_marker? (value : Value) : value.marker?.isSome = value.kind.isStructure := by
  cases value <;> rfl

end Value

namespace Store

open Engine

/-! ## All rows under a stem -/

/-- Exactly the given keys are removed. -/
theorem run_removeKeys (table : Table) (keys : List Bytes) :
    ∃ after, (removeKeys keys).run (ofTable table) = (.ok (), ofTable after) ∧
      ∀ physical, after.get? physical =
        if physical ∈ keys then none else table.get? physical := by
  induction keys generalizing table with
  | nil => exact ⟨table, rfl, fun physical => by simp⟩
  | cons key keys ih =>
      rcases ih (table.erase key) with ⟨after, hrun, hafter⟩
      refine ⟨after, ?_, fun physical => ?_⟩
      · rw [removeKeys, run_bind_ok (run_delete table key), hrun]
      · rw [hafter, Table.get?_erase]
        by_cases hkey : physical = key
        · simp [hkey]
        · simp [hkey, Ne.symm hkey]

/-- Exactly the rows under the stem are removed. -/
theorem run_removeItems (table : Table) (key : String) (marker : Key.Marker) :
    ∃ after, (removeItems key marker).run (ofTable table) = (.ok (), ofTable after) ∧
      (∀ physical, Key.itemStem key marker <+: physical → after.get? physical = none) ∧
      ∀ physical, ¬ Key.itemStem key marker <+: physical →
        after.get? physical = table.get? physical := by
  rcases run_removeKeys table ((table.rowsUnder (Key.itemStem key marker)).map (·.1))
    with ⟨after, hrun, hafter⟩
  have hmem := Table.mem_map_fst_rowsUnder table (Key.itemStem key marker)
  refine ⟨after, ?_, fun physical hstem => ?_, fun physical hstem => ?_⟩
  · rw [removeItems, run_bind_ok (run_scan table _), hrun]
  · rw [hafter]
    split
    · rfl
    · rename_i hnot
      rw [hmem] at hnot
      by_contra hget
      exact hnot ⟨hget, hstem⟩
  · rw [hafter, if_neg fun h => hstem ((hmem physical).mp h).2]

/-- A visit that goes on at every row and counts them. -/
theorem visitRows_count (rows : List Row) (count : Nat) :
    Table.visitRows (fun count _ => (count + 1, .proceed)) count rows = count + rows.length := by
  induction rows generalizing count with
  | nil => rfl
  | cons row rows ih =>
      simp only [Table.visitRows, ih, List.length_cons]
      omega

/-- The rows under a stem are counted. -/
theorem run_countItems (table : Table) (key : String) (marker : Key.Marker) :
    (countItems key marker).run (ofTable table) =
      (.ok (table.countUnder (Key.itemStem key marker)), ofTable table) := by
  rw [countItems, run_visitUnder, visitRows_count, Table.countUnder, Nat.zero_add]

/-! ## Counts -/

theorem run_increment {count : UInt64} (h : count.toNat < 18446744073709551615)
    (engine : Engine) : (increment count).run engine = (.ok (count + 1), engine) := by
  rw [increment, if_pos h]
  rfl

theorem toNat_add_one {count : UInt64} (h : count.toNat < 18446744073709551615) :
    (count + 1).toNat = count.toNat + 1 := by
  rw [UInt64.toNat_add]
  exact Nat.mod_eq_of_lt (by simp; omega)

theorem toNat_decrement (count : UInt64) : (decrement count).toNat = count.toNat - 1 := by
  by_cases hzero : count = 0
  · rw [decrement, if_pos hzero, hzero]
    rfl
  · have hpos : 1 ≤ count.toNat := by
      apply Nat.pos_of_ne_zero
      intro hcount
      exact hzero (UInt64.toNat_inj.mp hcount)
    have hone : (1 : UInt64).toNat = 1 := rfl
    have hle : (1 : UInt64) ≤ count := by rwa [UInt64.le_iff_toNat_le, hone]
    rw [decrement, if_neg hzero, UInt64.toNat_sub_of_le _ _ hle, hone]

/-! ## Counting metadata -/

/-- Metadata that counts the rows under a stem, as a function of the count. -/
inductive Counts : Key.Marker → (UInt64 → Value) → Prop where
  | counted (counted : Counted) : Counts counted.marker counted.metadata
  | bloom {slots : UInt8} {salt : String} (h : (Utf8.encode salt).length < 4294967296) :
      Counts .bloom fun count => .bloom ⟨slots, salt, count⟩

namespace Counts

variable {marker : Key.Marker} {metadata : UInt64 → Value}

theorem storable (h : Counts marker metadata) (count : UInt64) : (metadata count).Storable := by
  cases h with
  | counted counted => cases counted <;> trivial
  | bloom _ => trivial

/-- The metadata of a filter that can be read is such metadata. -/
theorem of_bloom {table : Table} {key : Bytes} {handle : BloomHandle} {expireAt : Option Instant}
    (h : table.HasFrame key ⟨.bloom handle, expireAt⟩) :
    Counts .bloom fun count => .bloom { handle with count } := by
  obtain ⟨_, _, hdecode⟩ := h
  exact .bloom (Frame.length_salt_of_decode hdecode)

/-- Such metadata can be written with any count. -/
theorem exists_payload (h : Counts marker metadata) (count : UInt64) :
    ∃ body, Frame.payload (metadata count) = .ok body := by
  cases h with
  | counted counted => cases counted <;> exact ⟨_, rfl⟩
  | bloom hsalt =>
      simp only [Frame.payload, Frame.textField, Frame.prefixedField, if_pos hsalt]
      exact ⟨_, rfl⟩

theorem exists_encode (h : Counts marker metadata) (count : UInt64) {expireAt : Option Instant}
    (hexpireAt : Frame.asStored expireAt = expireAt) :
    ∃ bytes, Frame.encode ⟨metadata count, expireAt⟩ = .ok bytes := by
  rcases h.exists_payload count with ⟨body, hbody⟩
  exact Frame.exists_encode hbody hexpireAt

end Counts

/-- Whether the metadata of a structure counts the rows under its stem, and
under the other stems lies nothing. -/
structure Tallied (table : Table) (key : String) (marker : Key.Marker)
    (metadata : UInt64 → Value) (count : UInt64) (expireAt : Option Instant) : Prop where
  counts : Counts marker metadata
  frame : table.HasFrame (Key.ofText key) ⟨metadata count, expireAt⟩
  rows : table.countUnder (Key.itemStem key marker) = count.toNat
  bare : ∀ other ≠ marker, table.countUnder (Key.itemStem key other) = 0

namespace Tallied

variable {table : Table} {key : String} {marker : Key.Marker} {metadata : UInt64 → Value}
  {count : UInt64} {expireAt : Option Instant} {physical : Bytes}

theorem exists_encode (h : Tallied table key marker metadata count expireAt) (next : UInt64) :
    ∃ bytes, Frame.encode ⟨metadata next, expireAt⟩ = .ok bytes :=
  h.counts.exists_encode next h.frame.asStored_expireAt

/-- Metadata is written over rows that it counts. -/
theorem of_insert_ofText {contents : Bytes} (hcounts : Counts marker metadata)
    (hencode : Frame.encode ⟨metadata count, expireAt⟩ = .ok contents)
    (hexpireAt : Frame.asStored expireAt = expireAt)
    (hrows : table.countUnder (Key.itemStem key marker) = count.toNat)
    (hbare : ∀ other ≠ marker, table.countUnder (Key.itemStem key other) = 0) :
    Tallied (table.insert (Key.ofText key) contents) key marker metadata count expireAt := by
  refine ⟨hcounts, .insert table _ hencode (hcounts.storable count) hexpireAt, ?_,
    fun other hother => ?_⟩
  · rw [Table.countUnder_insert_outside table _ (Key.not_itemStem_prefix_ofText key marker), hrows]
  · rw [Table.countUnder_insert_outside table _ (Key.not_itemStem_prefix_ofText key other),
      hbare other hother]

/-- Only what belongs to the key matters. -/
theorem congr {other : Table} (h : Tallied table key marker metadata count expireAt)
    (heq : ∀ physical, Key.Owns key physical → other.get? physical = table.get? physical) :
    Tallied other key marker metadata count expireAt := by
  have hcount : ∀ marker, other.countUnder (Key.itemStem key marker)
      = table.countUnder (Key.itemStem key marker) := fun marker =>
    Table.countUnder_congr fun physical hstem => heq physical (.under hstem)
  refine ⟨h.counts, h.frame.congr (heq _ (.self key)), ?_, fun other hother => ?_⟩
  · rw [hcount, h.rows]
  · rw [hcount, h.bare other hother]

/-- A row under one stem lies outside the others. -/
theorem outside {other : Key.Marker} (hphysical : Key.itemStem key marker <+: physical)
    (hother : other ≠ marker) : ¬ Key.itemStem key other <+: physical :=
  fun hstem => hother (Key.marker_eq_of_stems hstem hphysical)

theorem ne_ofText (hphysical : Key.itemStem key marker <+: physical) :
    physical ≠ Key.ofText key := by
  rintro rfl
  exact Key.not_itemStem_prefix_ofText key marker hphysical

/-- A row written over another one changes no count. -/
theorem overwrite (h : Tallied table key marker metadata count expireAt)
    (hphysical : Key.itemStem key marker <+: physical) (hget : table.get? physical ≠ none)
    (contents : Bytes) :
    Tallied (table.insert physical contents) key marker metadata count expireAt := by
  refine ⟨h.counts, h.frame.congr ?_, ?_, fun other hother => ?_⟩
  · exact Table.get?_insert_of_ne table contents (ne_ofText hphysical)
  · rw [Table.countUnder_insert table contents hphysical, if_neg hget, h.rows]
  · rw [Table.countUnder_insert_outside table contents (outside hphysical hother),
      h.bare other hother]

/-- A new row and one more in the metadata. -/
theorem add {contents item : Bytes} (h : Tallied table key marker metadata count expireAt)
    (hphysical : Key.itemStem key marker <+: physical) (hget : table.get? physical = none)
    (hroom : count.toNat < 18446744073709551615)
    (hencode : Frame.encode ⟨metadata (count + 1), expireAt⟩ = .ok contents) :
    Tallied ((table.insert physical item).insert (Key.ofText key) contents) key marker metadata
      (count + 1) expireAt := by
  apply of_insert_ofText h.counts hencode h.frame.asStored_expireAt
  · rw [Table.countUnder_insert table item hphysical, if_pos hget, h.rows, toNat_add_one hroom]
  · intro other hother
    rw [Table.countUnder_insert_outside table item (outside hphysical hother), h.bare other hother]

/-- A row less, and one less in the metadata. -/
theorem remove {contents : Bytes} (h : Tallied table key marker metadata count expireAt)
    (hphysical : Key.itemStem key marker <+: physical) (hget : table.get? physical ≠ none)
    (hencode : Frame.encode ⟨metadata (decrement count), expireAt⟩ = .ok contents) :
    Tallied ((table.erase physical).insert (Key.ofText key) contents) key marker metadata
      (decrement count) expireAt := by
  apply of_insert_ofText h.counts hencode h.frame.asStored_expireAt
  · rw [Table.countUnder_erase table hphysical, if_neg hget, h.rows, toNat_decrement]
  · intro other hother
    rw [Table.countUnder_erase_outside table (outside hphysical hother), h.bare other hother]

/-! ## Steps -/

/-- An item is written, over another one or as a new one. -/
theorem ends_putItem (h : Tallied table key marker metadata count expireAt)
    (hphysical : Key.itemStem key marker <+: physical)
    (hroom : count.toNat < 18446744073709551615) (value : Value) :
    Ends table
      (do
        let known := (← Engine.get physical).isSome
        write physical value none
        if known then return count
        let count ← increment count
        write (Key.ofText key) (metadata count) expireAt
        return count)
      fun _ after => ∃ next : UInt64, next.toNat ≤ count.toNat + 1 ∧
        Tallied after key marker metadata next expireAt := by
  refine .bind_run (run_get table physical) ?_
  cases hitem : Frame.encode ⟨value, none⟩ with
  | error fault => exact .bind_error (run_write_error hitem) ⟨count, by omega, h⟩
  | ok item =>
      refine .bind_run (run_write hitem) ?_
      cases hget : table.get? physical with
      | some contents =>
          refine .pure ⟨count, by omega, h.overwrite hphysical ?_ item⟩
          rw [hget]
          exact Option.some_ne_none contents
      | none =>
          rcases h.exists_encode (count + 1) with ⟨contents, hcontents⟩
          refine .bind_run (run_increment hroom _) (.bind_run (run_write hcontents) (.pure ?_))
          refine ⟨count + 1, ?_, h.add hphysical hget hroom hcontents⟩
          rw [toNat_add_one hroom]

/-- An item is written unless it is there. -/
theorem ends_putNewItem (h : Tallied table key marker metadata count expireAt)
    (hphysical : Key.itemStem key marker <+: physical)
    (hroom : count.toNat < 18446744073709551615) (value : Value) :
    Ends table
      (do
        if (← Engine.get physical).isSome then return count
        write physical value none
        let count ← increment count
        write (Key.ofText key) (metadata count) expireAt
        return count)
      fun _ after => ∃ next : UInt64, next.toNat ≤ count.toNat + 1 ∧
        Tallied after key marker metadata next expireAt := by
  refine .bind_run (run_get table physical) ?_
  cases hget : table.get? physical with
  | some contents => exact .pure ⟨count, by omega, h⟩
  | none =>
      cases hitem : Frame.encode ⟨value, none⟩ with
      | error fault => exact .bind_error (run_write_error hitem) ⟨count, by omega, h⟩
      | ok item =>
          rcases h.exists_encode (count + 1) with ⟨contents, hcontents⟩
          refine .bind_run (run_write hitem) (.bind_run (run_increment hroom _)
            (.bind_run (run_write hcontents) (.pure ?_)))
          refine ⟨count + 1, ?_, h.add hphysical hget hroom hcontents⟩
          rw [toNat_add_one hroom]

/-- An item is removed if it is there. -/
theorem ends_takeItem (h : Tallied table key marker metadata count expireAt)
    (hphysical : Key.itemStem key marker <+: physical) :
    Ends table
      (do
        if (← Engine.get physical).isNone then return count
        Engine.delete physical
        write (Key.ofText key) (metadata (decrement count)) expireAt
        return decrement count)
      fun _ after => ∃ next : UInt64, next.toNat ≤ count.toNat + 1 ∧
        Tallied after key marker metadata next expireAt := by
  refine .bind_run (run_get table physical) ?_
  cases hget : table.get? physical with
  | none => exact .pure ⟨count, by omega, h⟩
  | some found =>
      rcases h.exists_encode (decrement count) with ⟨contents, hcontents⟩
      have hless := toNat_decrement count
      refine .bind_run (run_delete table physical) (.bind_run (run_write hcontents) (.pure ?_))
      refine ⟨decrement count, by omega, h.remove hphysical ?_ hcontents⟩
      rw [hget]
      exact Option.some_ne_none found

/-! ## All items -/

/-- Nothing is left once all items and the metadata are removed. -/
theorem ends_removeAll (h : Tallied table key marker metadata count expireAt) :
    Ends table
      (do
        removeItems key marker
        Engine.delete (Key.ofText key))
      fun outcome after => outcome = .ok () ∧ after.Vacant key := by
  rcases run_removeItems table key marker with ⟨after, hrun, hunder, houtside⟩
  refine .bind_run hrun (.of_run (run_delete after _) ⟨rfl, ?_⟩)
  rw [Table.vacant_iff]
  refine ⟨Table.get?_erase_self after _, fun other => ?_⟩
  rw [Table.countUnder_erase_outside after (Key.not_itemStem_prefix_ofText key other)]
  by_cases hother : other = marker
  · rw [hother, Table.countUnder_eq_zero_iff]
    exact hunder
  · rw [← h.bare other hother]
    exact Table.countUnder_congr fun physical hstem =>
      houtside physical fun hmarker => hother (Key.marker_eq_of_stems hstem hmarker)

/-- Nothing is left of a structure that is purged. -/
theorem ends_purge (h : Tallied table key marker metadata count expireAt) :
    Ends table (purge key (metadata count)) fun outcome after =>
      outcome = .ok () ∧ after.Vacant key := by
  have hcounts := h.counts
  cases hcounts with
  | counted counted => cases counted <;> exact h.ends_removeAll
  | bloom _ => exact h.ends_removeAll

/-- Nothing is left of a structure that is deleted as one of its kind. -/
theorem ends_deleteAs {kind : Kind} (h : Tallied table key marker metadata count expireAt)
    (hkind : (metadata count).kind = kind) :
    Ends table (deleteAs key kind) fun outcome after =>
      outcome = .ok () ∧ after.Vacant key := by
  subst hkind
  exact .bind_run (run_readAs h.frame) h.ends_purge

/-- All items are removed and the metadata counts none. -/
theorem ends_clear (h : Tallied table key marker metadata count expireAt) :
    Ends table
      (do
        removeItems key marker
        write (Key.ofText key) (metadata 0) expireAt)
      fun outcome after => outcome = .ok () ∧ Tallied after key marker metadata 0 expireAt := by
  rcases run_removeItems table key marker with ⟨after, hrun, hunder, houtside⟩
  rcases h.exists_encode 0 with ⟨contents, hcontents⟩
  refine .bind_run hrun (.of_run (run_write hcontents) ⟨rfl, ?_⟩)
  apply of_insert_ofText h.counts hcontents h.frame.asStored_expireAt
  · exact (Table.countUnder_eq_zero_iff after _).mpr hunder
  · intro other hother
    rw [← h.bare other hother]
    exact Table.countUnder_congr fun physical hstem =>
      houtside physical fun hmarker => hother (Key.marker_eq_of_stems hstem hmarker)

end Tallied

/-! ## New structures -/

/-- A new structure counts no items. -/
theorem ends_create_tallied {key : String} {table : Table} {marker : Key.Marker}
    {metadata : UInt64 → Value} (hcounts : Counts marker metadata)
    (hkey : Key.isReserved key = false) (hvacant : table.Vacant key) :
    Ends table (create key (metadata 0)) fun outcome after =>
      outcome = .ok () ∧ Tallied after key marker metadata 0 none := by
  obtain ⟨habsent, hbare⟩ := (Table.vacant_iff table key).mp hvacant
  obtain ⟨contents, hcontents⟩ : ∃ contents, Frame.encode ⟨metadata 0, none⟩ = .ok contents :=
    hcounts.exists_encode 0 rfl
  refine .of_run (run_create hkey habsent hcontents) ⟨rfl, ?_⟩
  exact .of_insert_ofText hcounts hcontents rfl (hbare marker) fun other _ => hbare other

/-! ## Reading counts -/

theorem run_readCount_absent {table : Table} {key : String} {counted : Counted}
    (h : table.get? (Key.ofText key) = none) :
    (readCount key counted).run (ofTable table) = (.error .notFound, ofTable table) :=
  run_bind_error (run_readAs_none counted.kind h)

theorem run_readCount {table : Table} {key : String} {counted : Counted} {count : UInt64}
    {expireAt : Option Instant}
    (hframe : table.HasFrame (Key.ofText key) ⟨counted.metadata count, expireAt⟩) :
    (readCount key counted).run (ofTable table) = (.ok (count, expireAt), ofTable table) := by
  cases counted <;> exact run_bind_ok (run_readAs hframe)

/-- The count of a structure is found, or its reading fails. -/
theorem ends_readCount (table : Table) (key : String) (counted : Counted) :
    Ends table (readCount key counted) fun outcome after => after = table ∧
      ∀ found, outcome = .ok found →
        table.HasFrame (Key.ofText key) ⟨counted.metadata found.1, found.2⟩ := by
  refine .bind (ends_readAs table _ counted.kind) ?_ ?_
  · rintro e between ⟨rfl, _⟩
    exact ⟨rfl, fun _ h => by cases h⟩
  · rintro ⟨value, expireAt⟩ between ⟨rfl, hframe⟩
    rcases hframe _ rfl with ⟨hfound, hkind⟩
    cases counted <;> cases value <;> first
      | exact .pure ⟨rfl, fun _ h => by cases h; exact hfound⟩
      | cases hkind

end Store
end StructuredStore
