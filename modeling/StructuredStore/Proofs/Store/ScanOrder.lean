import StructuredStore.Proofs.Series.Chronology
import StructuredStore.Proofs.Store.Arranged

/-!
# Scans in the order of lists and of time

Selectors are ordered like the signed numbers that they stand for, and so are the
keys of items behind their common stem.  A scan under the stem of a list then
meets the items from the head to the tail, and one under the stem of a series
meets the points from the oldest to the newest, below zero and above.

Main definitions:

- `Table.rowsAt`: what lies at the places of some numbers.
- `Deque.InListOrder`, `Series.InTimeOrder`: scans in order.

Main results:

- `Table.rowsUnder_eq_rowsAt`, `Table.exists_places`: a scan meets places in the
  order of their numbers.
- `Store.Arranged.inListOrder`, `Store.Arranged.inTimeOrder`: scans of items that
  lie where they belong.
- `Session.run_scans_in_order`: selectors embed the order, and scans follow it
  after every run on one key.
-/

namespace StructuredStore

open Engine Store
open Deque (Ascending consecutive)

/-! ## Places of numbers -/

namespace Table

variable {table : Table} {stem : Bytes} {place : Int64 → Bytes} {indices : List Int64}

/-- The rows at the places of some numbers, as far as they are present. -/
def rowsAt (table : Table) (place : Int64 → Bytes) (indices : List Int64) : List Row :=
  indices.filterMap fun index => (table.get? (place index)).map fun contents =>
    (place index, contents)

theorem rowsAt_cons_absent {index : Int64} (h : table.get? (place index) = none) :
    table.rowsAt place (index :: indices) = table.rowsAt place indices := by
  simp [rowsAt, h]

theorem rowsAt_cons_present {index : Int64} {contents : Bytes}
    (h : table.get? (place index) = some contents) :
    table.rowsAt place (index :: indices) =
      (place index, contents) :: table.rowsAt place indices := by
  simp [rowsAt, h]

theorem mem_rowsAt {row : Row} : row ∈ table.rowsAt place indices ↔
    table.get? row.1 = some row.2 ∧ ∃ index ∈ indices, row.1 = place index := by
  simp only [rowsAt, List.mem_filterMap, Option.map_eq_some_iff]
  constructor
  · rintro ⟨index, hindex, contents, hget, rfl⟩
    exact ⟨hget, index, hindex, rfl⟩
  · rintro ⟨hget, index, hindex, hplace⟩
    exact ⟨index, hindex, row.2, hplace ▸ hget, by rw [← hplace]⟩

/-- Places that are ordered like their numbers lie in the order of a table. -/
theorem sorted_rowsAt (hordered : ∀ a b : Int64, place a < place b ↔ a.toInt < b.toInt)
    (h : Ascending indices) : Rows.Sorted (table.rowsAt place indices) := by
  rw [rowsAt, Rows.Sorted, List.pairwise_filterMap]
  apply h.imp
  intro a b hlt first hfirst second hsecond
  obtain ⟨_, _, rfl⟩ := Option.map_eq_some_iff.mp hfirst
  obtain ⟨_, _, rfl⟩ := Option.map_eq_some_iff.mp hsecond
  exact (hordered a b).mpr hlt

/-- Where all numbers have something at their places, the keys of the rows are the
places. -/
theorem map_fst_rowsAt (h : ∀ index ∈ indices, table.get? (place index) ≠ none) :
    (table.rowsAt place indices).map (·.1) = indices.map place := by
  induction indices with
  | nil => rfl
  | cons index indices ih =>
      obtain ⟨hfirst, hrest⟩ := List.forall_mem_cons.mp h
      obtain ⟨contents, hget⟩ := Option.ne_none_iff_exists'.mp hfirst
      rw [rowsAt_cons_present hget, List.map_cons, List.map_cons, ih hrest]

/-- A scan meets the places that hold something, in the order of their numbers. -/
theorem rowsUnder_eq_rowsAt (hordered : ∀ a b : Int64, place a < place b ↔ a.toInt < b.toInt)
    (hunder : ∀ index, stem <+: place index) (h : Ascending indices)
    (hall : ∀ physical, stem <+: physical → table.get? physical ≠ none →
      ∃ index ∈ indices, physical = place index) :
    table.rowsUnder stem = table.rowsAt place indices := by
  apply rowsUnder_eq_of_sorted (sorted_rowsAt hordered h)
  intro row
  rw [mem_rowsAt]
  constructor
  · rintro ⟨hget, index, _, hplace⟩
    exact ⟨hget, hplace ▸ hunder index⟩
  · rintro ⟨hget, hstem⟩
    exact ⟨hget, hall row.1 hstem (by rw [hget]; exact Option.some_ne_none _)⟩

/-- Where only places hold something, the keys that a scan meets are those of
increasing numbers. -/
theorem exists_places (hordered : ∀ a b : Int64, place a < place b ↔ a.toInt < b.toInt)
    (hplaces : ∀ physical, stem <+: physical → table.get? physical ≠ none →
      ∃ index, physical = place index) :
    ∃ indices, Ascending indices ∧ (table.rowsUnder stem).map (·.1) = indices.map place := by
  have hrange : (table.rowsUnder stem).map (·.1) ∈ Set.range (List.map place) := by
    rw [Set.range_list_map]
    intro physical hphysical
    obtain ⟨hget, hstem⟩ := (mem_map_fst_rowsUnder table stem physical).mp hphysical
    obtain ⟨index, hindex⟩ := hplaces physical hstem hget
    exact ⟨index, hindex.symm⟩
  obtain ⟨indices, hindices⟩ := hrange
  refine ⟨indices, ?_, hindices.symm⟩
  have hsorted : ((table.rowsUnder stem).map (·.1)).Pairwise (· < ·) :=
    List.pairwise_map.mpr (sorted_rowsUnder table stem)
  rw [← hindices, List.pairwise_map] at hsorted
  exact hsorted.imp fun {a b} hlt => (hordered a b).mp hlt

end Table

/-! ## Lists -/

namespace Deque

variable {table : Table} {key : String} {handle : ListHandle} {expireAt : Option Instant}
  {rows : List Row}

/-- The indices from the head of a list to its tail. -/
def indicesOf (handle : ListHandle) : List Int64 :=
  consecutive handle.head handle.length.toInt.toNat

/-- Whether the scan of a list meets its items in the order of their indices,
which increase from the head to the tail and are those of the list's positions:
reading the whole list answers the values of the rows, in their order.  It breaks
off only where a buffer would be too large for items that are not all there. -/
structure InListOrder (table : Table) (key : String) (handle : ListHandle) (rows : List Row) :
    Prop where
  scan : (Engine.scan (Key.itemStem key .list)).run (ofTable table) = (.ok rows, ofTable table)
  ascending : Ascending (indicesOf handle)
  bounds : ∀ index, index ∈ indicesOf handle ↔
    handle.head.toInt ≤ index.toInt ∧ index.toInt ≤ handle.tail.toInt
  items : rows = table.rowsAt (Key.listItem key) (indicesOf handle)
  range : (range key 0 (-1)).run (ofTable table) =
    (if maxItems < (indicesOf handle).length ∧ rows.length < (indicesOf handle).length then
      .error (.aborted .buffer) else rows.mapM fun row => valueOf row.2, ofTable table)

theorem Describes.indicesOf_eq {count : Nat} (h : Describes handle count) :
    indicesOf handle = consecutive handle.head count := by
  rw [indicesOf, h.length, Int.toNat_natCast]

/-- Items are read one after the other; absent ones are passed over. -/
theorem run_readItems_rowsAt (table : Table) (key : String) {head first : Int64} {offset : Int}
    {count : Nat} (hfirst : first.toInt = head.toInt + offset)
    (hroom : first.toInt + count ≤ 9223372036854775808) :
    (readItems key head offset count).run (ofTable table) =
      ((table.rowsAt (Key.listItem key) (consecutive first count)).mapM fun row => valueOf row.2,
        ofTable table) := by
  induction count generalizing first offset with
  | zero => rfl
  | succ count ih =>
      have hlow : -9223372036854775808 ≤ first.toInt := first.le_toInt
      have hsum : sum head offset = pure first := by
        rw [sum_of_fits ⟨by omega, by omega⟩, ← hfirst, Int64.ofInt_toInt]
      have hnext : (readItems key head (offset + 1) count).run (ofTable table) =
          ((table.rowsAt (Key.listItem key) (consecutive (first + 1) count)).mapM fun row =>
            valueOf row.2, ofTable table) := by
        cases count with
        | zero => rfl
        | succ count =>
            have hsuccessor := @toInt_add_one first (by omega)
            exact ih (by omega) (by omega)
      simp only [readItems, hsum, pure_bind, bind_pure_comp, consecutive]
      cases hget : table.get? (Key.listItem key first) with
      | none =>
          have hread : (readItem key first).run (ofTable table) = (.ok none, ofTable table) :=
            run_bind_ok (run_read_none hget)
          rw [run_bind_ok hread, run_map, hnext, Table.rowsAt_cons_absent hget]
          generalize (List.mapM _ _ : Except StoreError (List Value)) = rest
          cases rest <;> rfl
      | some item =>
          have hread := run_readItem hget
          rw [Table.rowsAt_cons_present hget, List.mapM_cons]
          cases hvalue : valueOf item with
          | error e =>
              rw [hvalue] at hread
              exact run_bind_error hread
          | ok value =>
              rw [hvalue] at hread
              rw [run_bind_ok hread, run_map, hnext]
              generalize (List.mapM _ _ : Except StoreError (List Value)) = rest
              cases rest <;> rfl

/-- The whole list is read from the head to the tail. -/
theorem run_range_rowsAt (hframe : table.HasFrame (Key.ofText key) ⟨.list handle, expireAt⟩)
    {count : Nat} (hdescribes : Describes handle count) :
    (range key 0 (-1)).run (ofTable table) =
      (if maxItems < (indicesOf handle).length ∧
          table.countUnder (Key.itemStem key .list) < (indicesOf handle).length then
        .error (.aborted .buffer)
      else (table.rowsAt (Key.listItem key) (indicesOf handle)).mapM fun row => valueOf row.2,
        ofTable table) := by
  have hlength := hdescribes.length
  have hzero : (0 : Int64).toInt = 0 := rfl
  have hlast : (-1 : Int64).toInt = -1 := rfl
  rw [range, run_bind_ok (run_readHandle hframe), hdescribes.indicesOf_eq, length_consecutive]
  dsimp only
  rw [hlength, hzero, hlast]
  cases count with
  | zero => rfl
  | succ count =>
      have hall : span? 0 (-1) ((count + 1 : Nat) : Int) = some (0, (count : Int)) := by
        have hleft : normalize 0 ((count + 1 : Nat) : Int) = 0 := rfl
        have hright : normalize (-1) ((count + 1 : Nat) : Int) = count := by
          rw [normalize, if_pos (by decide)]
          omega
        rw [span?, hleft, hright, if_neg (by omega)]
        congr 2
        omega
      have hspan : ((count : Int) - 0 + 1).toNat = count + 1 := by omega
      rw [hall]
      dsimp only
      have hbuffer := run_reserve key (count + 1) (ofTable table)
      rw [hspan]
      split
      · rename_i hlarge
        exact run_bind_error (hbuffer.trans (Prod.ext (if_pos hlarge) rfl))
      · rename_i hlarge
        rw [run_bind_ok (hbuffer.trans (Prod.ext (if_neg hlarge) rfl))]
        exact run_readItems_rowsAt table key (by omega) hdescribes.room

/-- The metadata of a list counts all the indices from its head to its tail. -/
theorem Describes.mem_indicesOf_iff {count : Nat} (h : Describes handle count) (index : Int64) :
    index ∈ indicesOf handle ↔
      handle.head.toInt ≤ index.toInt ∧ index.toInt ≤ handle.tail.toInt := by
  have htail := h.tail
  rw [h.indicesOf_eq, mem_consecutive_iff h.room]
  omega

/-- A stored list has an item at each of its indices. -/
theorem Stored.get?_ne_none {items : List Bytes} (h : Stored table key handle expireAt items)
    {index : Int64} (hindex : index ∈ indicesOf handle) :
    table.get? (Key.listItem key index) ≠ none := by
  have htail := h.describes.tail
  have hbounds := (h.describes.mem_indicesOf_iff index).mp hindex
  rw [h.spread.at_index, slot_ne_none_iff]
  omega

end Deque

/-- The scan of a list whose items lie within the span of its metadata. -/
theorem Store.Arranged.inListOrder {table : Table} {key : String} {handle : ListHandle}
    {expireAt : Option Instant} (h : Arranged key table)
    (hframe : table.HasFrame (Key.ofText key) ⟨.list handle, expireAt⟩) :
    Deque.InListOrder table key handle (table.rowsUnder (Key.itemStem key .list)) := by
  obtain ⟨count, hdescribes⟩ := h.regular handle expireAt hframe
  have hascending : Ascending (Deque.indicesOf handle) :=
    hdescribes.indicesOf_eq ▸ Deque.ascending_consecutive hdescribes.room
  have hitems := @Table.rowsUnder_eq_rowsAt table (Key.itemStem key .list) (Key.listItem key)
    (Deque.indicesOf handle) (Key.listItem_lt_iff key) (Key.itemStem_prefix_listItem key)
    hascending ?_
  · refine ⟨run_scan table _, hascending, hdescribes.mem_indicesOf_iff, hitems, ?_⟩
    have hrange := Deque.run_range_rowsAt hframe hdescribes
    rwa [← hitems] at hrange
  · intro physical hstem hget
    have hcovers := (h.accounted.covers trivial hstem hget hframe).2
    obtain ⟨index, hplace, hspan⟩ := covers_list.mp hcovers
    exact ⟨index, (hdescribes.mem_indicesOf_iff index).mpr hspan, hplace⟩

/-! ## Series -/

namespace Series

variable {table : Table} {key : String} {count : UInt64} {expireAt : Option Instant}
  {rows : List Row}

/-- Whether the scan of a series meets its points in the order of time: the
instants that are read from the keys increase and are those of all points, and
reading the whole series answers the points of the rows, in their order. -/
structure InTimeOrder (table : Table) (key : String) (rows : List Row) : Prop where
  scan : (Engine.scan (Key.itemStem key .series)).run (ofTable table) = (.ok rows, ofTable table)
  instants : ∃ instants : List Instant, instants.Pairwise (· < ·) ∧
    rows.map (fun row => Key.ofInstantSelector (selectorOf key row)) = instants.map .ok ∧
    ∀ count, .ofInt64 count ∈ instants ↔ table.get? (pointAt key count) ≠ none
  range : (range key (.ofInt64 Int64.minValue) (.ofInt64 Int64.maxValue)).run (ofTable table) =
    (lift (rows.mapM (readPoint key))).run (ofTable table)

/-- What is read from the keys of rows at points. -/
theorem map_selectorOf {counts : List Int64} (h : rows.map (·.1) = counts.map (pointAt key)) :
    rows.map (selectorOf key) = counts.map Key.indexSelector := by
  calc
    rows.map (selectorOf key)
      = (rows.map (·.1)).map (List.drop (Key.itemStem key .series).length) := by
        rw [List.map_map]
        rfl
    _ = (counts.map (pointAt key)).map (List.drop (Key.itemStem key .series).length) := by rw [h]
    _ = counts.map Key.indexSelector := by
        rw [List.map_map]
        exact List.map_congr_left fun count _ => selectorOf_pointAt key count []

/-- All points are between the first instant that has a selector and the last. -/
theorem run_range_all (hframe : table.HasFrame (Key.ofText key) ⟨.series count, expireAt⟩)
    {counts : List Int64} (hascending : Ascending counts)
    (hrows : (table.rowsUnder (Key.itemStem key .series)).map (selectorOf key) =
      counts.map Key.indexSelector) :
    (range key (.ofInt64 Int64.minValue) (.ofInt64 Int64.maxValue)).run (ofTable table) =
      (lift ((table.rowsUnder (Key.itemStem key .series)).mapM (readPoint key))).run
        (ofTable table) := by
  have hordered : ¬ Instant.ofInt64 Int64.maxValue < Instant.ofInt64 Int64.minValue := by
    rw [Instant.ofInt64_lt_iff]
    decide
  have hsorted : (table.rowsUnder (Key.itemStem key .series)).Pairwise fun a b =>
      selectorOf key a < selectorOf key b := by
    rw [← List.pairwise_map (f := selectorOf key) (R := (· < ·)), hrows, List.pairwise_map]
    exact hascending.imp fun hlt => (Key.indexSelector_lt_iff _ _).mpr hlt
  have hbetween : ∀ row ∈ table.rowsUnder (Key.itemStem key .series),
      Key.indexSelector Int64.minValue ≤ selectorOf key row ∧
        selectorOf key row ≤ Key.indexSelector Int64.maxValue := by
    intro row hrow
    have hmem := List.mem_map_of_mem (f := selectorOf key) hrow
    rw [hrows] at hmem
    obtain ⟨count, _, hcount⟩ := List.mem_map.mp hmem
    rw [← hcount, ← List.not_lt, ← List.not_lt, Key.indexSelector_lt_iff, Key.indexSelector_lt_iff]
    exact ⟨Int.not_lt.mpr count.le_toInt, Int.not_lt.mpr count.toInt_le⟩
  rw [range, run_bind_ok (@run_readCount table key .series count expireAt hframe),
    if_neg hordered, run_bind_ok (run_lift_ok (instantSelector_ok (Instant.toInt64?_ofInt64 _)) _),
    run_bind_ok (run_lift_ok (instantSelector_ok (Instant.toInt64?_ofInt64 _)) _),
    run_bind_ok (run_visitUnder table _ _ _), visitRows_collectBetween key _ _ hsorted,
    List.append_nil, List.reverse_reverse, List.filter_eq_self.mpr fun row hrow => by
      simpa using hbetween row hrow]

end Series

/-- The scan of a series whose items are points. -/
theorem Store.Arranged.inTimeOrder {table : Table} {key : String} {count : UInt64}
    {expireAt : Option Instant} (h : Arranged key table)
    (hframe : table.HasFrame (Key.ofText key) ⟨.series count, expireAt⟩) :
    Series.InTimeOrder table key (table.rowsUnder (Key.itemStem key .series)) := by
  obtain ⟨counts, hascending, hplaces⟩ :=
    Table.exists_places (Series.pointAt_lt_iff key) h.onlyPoints
  have hselectors := Series.map_selectorOf hplaces
  refine ⟨run_scan table _, ⟨counts.map .ofInt64, ?_, ?_, fun count => ?_⟩,
    Series.run_range_all hframe hascending hselectors⟩
  · rw [List.pairwise_map]
    exact hascending.imp fun hlt => (Instant.ofInt64_lt_iff _ _).mpr hlt
  · calc
      (table.rowsUnder (Key.itemStem key .series)).map
          (fun row => Key.ofInstantSelector (Series.selectorOf key row))
        = ((table.rowsUnder (Key.itemStem key .series)).map (Series.selectorOf key)).map
            Key.ofInstantSelector := by rw [List.map_map]; rfl
      _ = (counts.map Key.indexSelector).map Key.ofInstantSelector := by rw [hselectors]
      _ = (counts.map .ofInt64).map .ok := by
          rw [List.map_map, List.map_map]
          refine List.map_congr_left fun count _ => ?_
          rw [Function.comp_apply, Key.ofInstantSelector, Key.ofIndexSelector_indexSelector]
          rfl
  · rw [List.mem_map_of_injective fun _ _ => Instant.ofInt64_injective,
      ← List.mem_map_of_injective (f := Series.pointAt key)
        fun _ _ => (Series.places_pointAt key).injective, ← hplaces,
      Table.mem_map_fst_rowsUnder]
    exact and_iff_left ((Series.places_pointAt key).under count)

/-! ## Runs -/

/-- Selectors embed the order of signed 64-bit numbers into that of byte strings,
every eight bytes are the selector of the number that they are read as, and so a
scan meets the items of every list in list order and those of every series in
time order, whatever operations on the one key came before.  As long as there
were fewer than `2 ^ 63` of them there is an item for every position, and as many
points as are counted. -/
theorem Session.run_scans_in_order (session : Session)
    (hstart : session.engine = .ofTable .empty) {key : String} (steps : List Step)
    (hops : ∀ op ∈ operations steps, op.key? = some key) :
    (∀ i j : Int64, Key.indexSelector i < Key.indexSelector j ↔ i < j) ∧
      (∀ i : Int64, Key.ofIndexSelector (Key.indexSelector i) = .ok i) ∧
      (∀ selector : Bytes, selector.length = 8 → ∃ index,
        Key.ofIndexSelector selector = .ok index ∧ Key.indexSelector index = selector) ∧
      ∃ table, (session.run steps).2.engine = .ofTable table ∧
        (∀ handle expireAt, table.HasFrame (Key.ofText key) ⟨.list handle, expireAt⟩ →
          ∃ rows, Deque.InListOrder table key handle rows ∧
            ((operations steps).length < 9223372036854775808 →
              rows.map (·.1) = (Deque.indicesOf handle).map (Key.listItem key))) ∧
        ∀ count expireAt, table.HasFrame (Key.ofText key) ⟨.series count, expireAt⟩ →
          ∃ rows, Series.InTimeOrder table key rows ∧
            ((operations steps).length < 9223372036854775808 → rows.length = count.toNat) := by
  refine ⟨fun i j => ?_, Key.ofIndexSelector_indexSelector, fun selector hlength => ?_, ?_⟩
  · rw [Key.indexSelector_lt_iff, Int64.lt_iff_toInt_lt]
  · exact Key.exists_indexSelector hlength
  obtain ⟨table, hengine⟩ := run_ofTable session hstart hops
  refine ⟨table, hengine, ?_⟩
  have hempty : session.engine.table = .empty := by rw [hstart]; rfl
  cases hreserved : Key.isReserved key with
  | true =>
      -- There is neither a list nor a series at the key.
      have hnone : Unstructured key (session.run steps).2.engine.table :=
        run_unstructured session hempty hreserved hops
      rw [hengine] at hnone
      exact ⟨fun handle _ hframe => absurd hframe (hnone.not_list handle),
        fun count _ hframe => absurd rfl (hnone.marker?_ne_some hframe .series)⟩
  | false =>
      have harranged : Arranged key (session.run steps).2.engine.table :=
        run_arranged session hempty hreserved hops (pushesWhole session hstart hops)
      rw [hengine] at harranged
      have hholds : (operations steps).length < 9223372036854775808 →
          ∃ expireAt, Holds table key (operations steps).length expireAt := by
        intro hcount
        obtain ⟨after, hafter, hholds⟩ :=
          run_holds_unreserved session hstart hreserved steps hops hcount
        cases hengine.symm.trans hafter
        exact hholds
      refine ⟨fun handle expireAt hframe => ⟨_, harranged.inListOrder hframe, fun hcount => ?_⟩,
        fun count expireAt hframe => ⟨_, harranged.inTimeOrder hframe, fun hcount => ?_⟩⟩
      · obtain ⟨_, hholds⟩ := hholds hcount
        obtain ⟨items, _, hstored, _⟩ := hholds.list hframe
        rw [(harranged.inListOrder hframe).items]
        exact Table.map_fst_rowsAt fun index hindex => hstored.get?_ne_none hindex
      · obtain ⟨_, hholds⟩ := hholds hcount
        exact (@Holds.counted table key _ _ .series count expireAt hholds hframe).1.rows

/-- Items that are pushed on the left of the first one lie in front of it, at
indices below zero, and so does a point before 1970 in front of one behind. -/
theorem Session.run_scans_in_order_across_zero :
    let session : Session := ⟨.ofTable .empty, ⟨0⟩, ⟨60, by decide, by decide⟩, .none⟩
    let pushes : List Step := [.operation (.listCreate "key"),
      .operation (.listPush "key" .right (.int 0)), .operation (.listPush "key" .left (.int (-1))),
      .operation (.listPush "key" .left (.int (-2)))]
    let additions : List Step := [.operation (.seriesCreate "key"),
      .operation (.seriesAdd "key" (.ofInt64 1) .null),
      .operation (.seriesAdd "key" (.ofInt64 (-1)) .null)]
    session.engine = .ofTable .empty ∧ (∀ op ∈ operations pushes, op.key? = some "key") ∧
      (∀ op ∈ operations additions, op.key? = some "key") ∧
      (∃ table rows, (session.run pushes).2.engine = .ofTable table ∧
        table.HasFrame (Key.ofText "key") ⟨.list ⟨-2, 0, 3⟩, none⟩ ∧
        Deque.InListOrder table "key" ⟨-2, 0, 3⟩ rows ∧
        rows.map (·.1) =
          [Key.listItem "key" (-2), Key.listItem "key" (-1), Key.listItem "key" 0]) ∧
      ∃ table rows, (session.run additions).2.engine = .ofTable table ∧
        table.HasFrame (Key.ofText "key") ⟨.series 2, none⟩ ∧
        Series.InTimeOrder table "key" rows ∧ rows.length = 2 := by
  intro session pushes additions
  have hpushes : ∀ op ∈ operations pushes, op.key? = some "key" := by
    simp [operations, pushes, Step.operation?, Operation.key?]
  have hadditions : ∀ op ∈ operations additions, op.key? = some "key" := by
    simp [operations, additions, Step.operation?, Operation.key?]
  refine ⟨rfl, hpushes, hadditions, ?_, ?_⟩
  · obtain ⟨_, _, _, table, hengine, hlists, _⟩ := run_scans_in_order session rfl pushes hpushes
    have hframe : (session.run pushes).2.engine.table.HasFrame (Key.ofText "key")
        ⟨.list ⟨-2, 0, 3⟩, none⟩ := by
      decide +kernel
    rw [hengine] at hframe
    obtain ⟨rows, horder, hwhole⟩ := hlists _ _ hframe
    exact ⟨table, rows, hengine, hframe, horder, hwhole (by decide)⟩
  · obtain ⟨_, _, _, table, hengine, _, hseries⟩ :=
      run_scans_in_order session rfl additions hadditions
    have hframe : (session.run additions).2.engine.table.HasFrame (Key.ofText "key")
        ⟨.series 2, none⟩ := by
      decide +kernel
    rw [hengine] at hframe
    obtain ⟨rows, horder, hcounted⟩ := hseries _ _ hframe
    exact ⟨table, rows, hengine, hframe, horder, hcounted (by decide)⟩

end StructuredStore
