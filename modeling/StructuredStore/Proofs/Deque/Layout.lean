import StructuredStore.Proofs.Key.Ownership
import StructuredStore.Proofs.Store.Steps
import StructuredStore.Store.Deque

/-!
# How a list lies in a table

A stored list is a frame with its metadata and one row for each item, at
consecutive indices from the head to the tail; nothing else lies under any of
the key's stems.

Main results:

- `Spread.rowsUnder_eq`: a scan of a list meets its items in order.
- `Spread.cons`, `Spread.concat`, `Without.spread`: which items there are after
  rows were written or removed.
- `Stored.countUnder_eq`: there are as many rows as items.
-/

namespace StructuredStore

/-! ## Arithmetic within range -/

/-- A 64-bit sum within the range is exact. -/
theorem toInt_add_of_range {a b : Int64} (hlow : -9223372036854775808 ≤ a.toInt + b.toInt)
    (hhigh : a.toInt + b.toInt ≤ 9223372036854775807) : (a + b).toInt = a.toInt + b.toInt := by
  rw [Int64.toInt_add]
  exact Int.bmod_eq_of_le (by norm_num; omega) (by norm_num; omega)

/-- So is a difference. -/
theorem toInt_sub_of_range {a b : Int64} (hlow : -9223372036854775808 ≤ a.toInt - b.toInt)
    (hhigh : a.toInt - b.toInt ≤ 9223372036854775807) : (a - b).toInt = a.toInt - b.toInt := by
  rw [Int64.toInt_sub]
  exact Int.bmod_eq_of_le (by norm_num; omega) (by norm_num; omega)

/-- The next index, below the last one. -/
theorem toInt_add_one {a : Int64} (h : a.toInt < 9223372036854775807) :
    (a + 1).toInt = a.toInt + 1 := by
  have hlow : -9223372036854775808 ≤ a.toInt := a.le_toInt
  have hone : (1 : Int64).toInt = 1 := rfl
  rw [toInt_add_of_range (by omega) (by omega), hone]

/-- The index in front, above the first one. -/
theorem toInt_sub_one {a : Int64} (h : -9223372036854775808 < a.toInt) :
    (a - 1).toInt = a.toInt - 1 := by
  have hhigh : a.toInt ≤ 9223372036854775807 := a.toInt_le
  have hone : (1 : Int64).toInt = 1 := rfl
  rw [toInt_sub_of_range (by omega) (by omega), hone]

namespace Deque

/-! ## Items by offset -/

/-- The item at an offset from the head, which may lie outside the list. -/
def slot (items : List Bytes) (offset : Int) : Option Bytes :=
  if 0 ≤ offset then items[offset.toNat]? else none

theorem slot_nil (offset : Int) : slot [] offset = none := by
  simp [slot]

/-- Nothing lies in front of the first item, -/
theorem slot_of_neg (items : List Bytes) {offset : Int} (h : offset < 0) :
    slot items offset = none :=
  if_neg (by omega)

/-- and nothing behind the last one. -/
theorem slot_of_le (items : List Bytes) {offset : Int} (h : items.length ≤ offset) :
    slot items offset = none := by
  rw [slot, if_pos (by omega), List.getElem?_eq_none_iff]
  omega

/-- There is an item exactly at the offsets within the list. -/
theorem slot_ne_none_iff (items : List Bytes) (offset : Int) :
    slot items offset ≠ none ↔ 0 ≤ offset ∧ offset < items.length := by
  constructor
  · intro h
    constructor
    · exact Int.not_lt.mp fun hneg => h (slot_of_neg items hneg)
    · exact Int.not_le.mp fun hle => h (slot_of_le items hle)
  · rintro ⟨hlow, hhigh⟩
    rw [slot, if_pos hlow, ne_eq, List.getElem?_eq_none_iff]
    omega

/-- What lies in the places of a sequence with a first item, -/
theorem slot_cons (item : Bytes) (items : List Bytes) (offset : Int) :
    slot (item :: items) offset = if offset = 0 then some item else slot items (offset - 1) := by
  by_cases hneg : offset < 0
  · rw [if_neg (by omega), slot_of_neg _ hneg, slot_of_neg _ (by omega)]
  · by_cases hzero : offset = 0
    · rw [if_pos hzero, hzero]
      rfl
    · have hindex : offset.toNat = (offset - 1).toNat + 1 := by omega
      rw [if_neg hzero, slot, if_pos (by omega), slot, if_pos (by omega), hindex,
        List.getElem?_cons_succ]

/-- with a last item, -/
theorem slot_concat (items : List Bytes) (item : Bytes) (offset : Int) :
    slot (items ++ [item]) offset =
      if offset = items.length then some item else slot items offset := by
  by_cases hneg : offset < 0
  · rw [if_neg (by omega), slot_of_neg _ hneg, slot_of_neg _ hneg]
  · by_cases hlast : offset = items.length
    · rw [if_pos hlast, hlast, slot, if_pos (by omega)]
      simp
    · rw [if_neg hlast, slot, if_pos (by omega), slot, if_pos (by omega)]
      rcases Nat.lt_or_ge offset.toNat items.length with hlt | hge
      · rw [List.getElem?_append_left hlt]
      · rw [List.getElem?_eq_none_iff.mpr hge, List.getElem?_eq_none_iff, List.length_append,
          List.length_singleton]
        omega

/-- and with an item that was replaced. -/
theorem slot_set (items : List Bytes) (position : Nat) (item : Bytes) (offset : Int)
    (h : position < items.length) :
    slot (items.set position item) offset =
      if offset = position then some item else slot items offset := by
  by_cases hneg : offset < 0
  · rw [if_neg (by omega), slot_of_neg _ hneg, slot_of_neg _ hneg]
  · by_cases hposition : offset = position
    · rw [if_pos hposition, slot, if_pos (by omega), List.getElem?_set, if_pos (by omega),
        if_pos h]
    · rw [if_neg hposition, slot, if_pos (by omega), slot, if_pos (by omega),
        List.getElem?_set_ne (by omega)]

/-- The items of a part of a list, by their offsets in the whole list. -/
theorem slot_take_drop (items : List Bytes) (first count : Nat) (offset : Int) :
    slot ((items.drop first).take count) offset =
      if 0 ≤ offset ∧ offset < count then slot items (offset + first) else none := by
  by_cases hneg : offset < 0
  · rw [if_neg (by omega), slot_of_neg _ hneg]
  · by_cases hcount : offset < count
    · have hindex : (offset + first).toNat = first + offset.toNat := by omega
      rw [if_pos ⟨by omega, hcount⟩, slot, if_pos (by omega), slot, if_pos (by omega), hindex,
        List.getElem?_take_of_lt (by omega), List.getElem?_drop]
    · rw [if_neg (by omega)]
      apply slot_of_le
      rw [List.length_take]
      omega

/-! ## Items in tables -/

/-- Whether exactly the given items lie under the list stem of the key, at
consecutive indices from `head` on. -/
structure Spread (table : Table) (key : String) (head : Int) (items : List Bytes) : Prop where
  at_index : ∀ index : Int64,
    table.get? (Key.listItem key index) = slot items (index.toInt - head)
  /-- What lies under the stem is an item. -/
  is_item : ∀ physical, Key.itemStem key .list <+: physical → table.get? physical ≠ none →
    ∃ index, physical = Key.listItem key index

namespace Spread

variable {table : Table} {key : String} {head : Int} {items : List Bytes}

/-- Whether tables agree under the stem of a list is all that matters to it. -/
theorem congr {other : Table} (h : Spread table key head items)
    (heq : ∀ physical, Key.itemStem key .list <+: physical →
      other.get? physical = table.get? physical) : Spread other key head items := by
  constructor
  · intro index
    rw [heq _ (Key.itemStem_prefix_listItem key index), h.at_index]
  · intro physical hstem hget
    rw [heq _ hstem] at hget
    exact h.is_item physical hstem hget

/-- Writing the metadata leaves the items. -/
theorem insert_ofText (h : Spread table key head items) (contents : Bytes) :
    Spread (table.insert (Key.ofText key) contents) key head items := by
  refine h.congr fun physical hstem => Table.get?_insert_of_ne table contents ?_
  rintro rfl
  exact Key.not_itemStem_prefix_ofText key .list hstem

/-- Nothing lies under the stem of a list without items. -/
theorem nil_iff (head : Int) :
    Spread table key head [] ↔ table.countUnder (Key.itemStem key .list) = 0 := by
  rw [Table.countUnder_eq_zero_iff]
  constructor
  · intro h physical hstem
    by_contra hget
    obtain ⟨index, rfl⟩ := h.is_item physical hstem hget
    rw [h.at_index, slot_nil] at hget
    exact hget rfl
  · intro h
    constructor
    · intro index
      rw [h _ (Key.itemStem_prefix_listItem key index), slot_nil]
    · intro physical hstem hget
      exact absurd (h physical hstem) hget

/-- The items after the item at one index was written. -/
theorem of_insert {index : Int64} {item : Bytes} {head' : Int} {items' : List Bytes}
    (h : Spread table key head items)
    (hslot : ∀ other : Int64, slot items' (other.toInt - head') =
      if other = index then some item else slot items (other.toInt - head)) :
    Spread (table.insert (Key.listItem key index) item) key head' items' := by
  constructor
  · intro other
    rw [Table.get?_insert, hslot other]
    by_cases heq : other = index
    · rw [if_pos heq, if_pos (by rw [heq])]
    · rw [if_neg heq, if_neg (by simpa using Ne.symm heq), h.at_index]
  · intro physical hstem hget
    rw [Table.get?_insert] at hget
    split at hget
    · rename_i heq
      exact ⟨index, heq.symm⟩
    · exact h.is_item physical hstem hget

/-- An item written in front of the first one. -/
theorem cons (h : Spread table key head items) {index : Int64} (hindex : index.toInt = head - 1)
    (item : Bytes) :
    Spread (table.insert (Key.listItem key index) item) key (head - 1) (item :: items) := by
  refine h.of_insert fun other => ?_
  have hinj : other = index ↔ other.toInt = index.toInt := Int64.toInt_inj.symm
  have hoffset : other.toInt - (head - 1) - 1 = other.toInt - head := by omega
  rw [slot_cons, hoffset]
  simp only [hinj, hindex]
  by_cases hother : other.toInt = head - 1
  · rw [if_pos (by omega), if_pos hother]
  · rw [if_neg (by omega), if_neg hother]

/-- An item written behind the last one. -/
theorem concat (h : Spread table key head items) {index : Int64}
    (hindex : index.toInt = head + items.length) (item : Bytes) :
    Spread (table.insert (Key.listItem key index) item) key head (items ++ [item]) := by
  refine h.of_insert fun other => ?_
  have hinj : other = index ↔ other.toInt = index.toInt := Int64.toInt_inj.symm
  rw [slot_concat]
  simp only [hinj, hindex]
  by_cases hother : other.toInt = head + items.length
  · rw [if_pos (by omega), if_pos hother]
  · rw [if_neg (by omega), if_neg hother]

/-- An item written over another one. -/
theorem set (h : Spread table key head items) {index : Int64} {position : Nat}
    (hposition : position < items.length) (hindex : index.toInt = head + position)
    (item : Bytes) :
    Spread (table.insert (Key.listItem key index) item) key head (items.set position item) := by
  refine h.of_insert fun other => ?_
  have hinj : other = index ↔ other.toInt = index.toInt := Int64.toInt_inj.symm
  rw [slot_set items position item _ hposition]
  simp only [hinj, hindex]
  by_cases hother : other.toInt = head + position
  · rw [if_pos (by omega), if_pos hother]
  · rw [if_neg (by omega), if_neg hother]

end Spread

/-! ## Removed intervals -/

/-- Whether one table is another one without the list items at the indices from
`low` up to, but not including, `high`. -/
structure Without (table : Table) (key : String) (low high : Int) (after : Table) : Prop where
  at_index : ∀ index : Int64, after.get? (Key.listItem key index) =
    if low ≤ index.toInt ∧ index.toInt < high then none
    else table.get? (Key.listItem key index)
  elsewhere : ∀ physical, (∀ index, physical ≠ Key.listItem key index) →
    after.get? physical = table.get? physical

namespace Without

variable {table middle after : Table} {key : String}

theorem refl (table : Table) (key : String) {low high : Int} (h : high ≤ low) :
    Without table key low high table :=
  ⟨fun index => (if_neg (by omega)).symm, fun _ _ => rfl⟩

/-- Adjacent intervals are removed one after the other. -/
theorem trans {low between high : Int} (hfirst : Without table key low between middle)
    (hsecond : Without middle key between high after) (hlow : low ≤ between)
    (hhigh : between ≤ high) : Without table key low high after := by
  constructor
  · intro index
    rw [hsecond.at_index, hfirst.at_index]
    by_cases hin : low ≤ index.toInt ∧ index.toInt < high
    · rw [if_pos hin]
      by_cases hfront : index.toInt < between
      · rw [if_neg (by omega), if_pos (by omega)]
      · rw [if_pos (by omega)]
    · rw [if_neg hin, if_neg (by omega), if_neg (by omega)]
  · intro physical hphysical
    rw [hsecond.elsewhere physical hphysical, hfirst.elsewhere physical hphysical]

/-- One item is removed. -/
theorem erase (table : Table) (key : String) (index : Int64) :
    Without table key index.toInt (index.toInt + 1) (table.erase (Key.listItem key index)) := by
  constructor
  · intro other
    have hinj : index = other ↔ index.toInt = other.toInt := Int64.toInt_inj.symm
    rw [Table.get?_erase]
    simp only [Key.listItem_inj, hinj]
    by_cases hother : index.toInt = other.toInt
    · rw [if_pos hother, if_pos (by omega)]
    · rw [if_neg hother, if_neg (by omega)]
  · intro physical hphysical
    exact Table.get?_erase_of_ne table fun heq => hphysical index heq.symm

/-- Other stems keep their rows. -/
theorem countUnder_eq {low high : Int} (h : Without table key low high after)
    {marker : Key.Marker} (hmarker : marker ≠ .list) :
    after.countUnder (Key.itemStem key marker) = table.countUnder (Key.itemStem key marker) := by
  apply Table.countUnder_congr
  intro physical hstem
  apply h.elsewhere
  rintro index rfl
  exact hmarker (Key.marker_eq_of_stems hstem (Key.itemStem_prefix_listItem key index))

/-- What is left of a list when items were removed. -/
theorem spread {low high head head' : Int} {items items' : List Bytes}
    (h : Without table key low high after) (hspread : Spread table key head items)
    (hslot : ∀ index : Int64, slot items' (index.toInt - head') =
      if low ≤ index.toInt ∧ index.toInt < high then none
      else slot items (index.toInt - head)) : Spread after key head' items' := by
  constructor
  · intro index
    rw [h.at_index, hspread.at_index, hslot]
  · intro physical hstem hget
    by_contra hnot
    have hnot : ∀ index, physical ≠ Key.listItem key index := fun index heq => hnot ⟨index, heq⟩
    rw [h.elsewhere physical hnot] at hget
    obtain ⟨index, heq⟩ := hspread.is_item physical hstem hget
    exact hnot index heq

end Without

namespace Spread

variable {table : Table} {key : String} {head : Int} {items : List Bytes}

/-- A list without items starts anywhere. -/
theorem nil_of_nil {head' : Int} (h : Spread table key head []) : Spread table key head' [] :=
  (nil_iff head').mpr ((nil_iff head).mp h)

/-- The first item removed. -/
theorem erase_first {item : Bytes} (h : Spread table key head (item :: items)) {index : Int64}
    (hindex : index.toInt = head) :
    Spread (table.erase (Key.listItem key index)) key (head + 1) items := by
  refine (Without.erase table key index).spread h fun other => ?_
  have hoffset : other.toInt - (head + 1) = other.toInt - head - 1 := by omega
  rw [slot_cons, hoffset]
  by_cases hother : other.toInt = head
  · rw [if_pos ⟨by omega, by omega⟩, slot_of_neg _ (by omega)]
  · rw [if_neg (fun hin => hother (by omega)), if_neg (by omega)]

/-- The last item removed. -/
theorem erase_last {item : Bytes} (h : Spread table key head (items ++ [item])) {index : Int64}
    (hindex : index.toInt = head + items.length) :
    Spread (table.erase (Key.listItem key index)) key head items := by
  refine (Without.erase table key index).spread h fun other => ?_
  rw [slot_concat]
  by_cases hother : other.toInt = head + items.length
  · rw [if_pos ⟨by omega, by omega⟩, slot_of_le _ (by omega)]
  · rw [if_neg (fun hin => hother (by omega)), if_neg (by omega)]

end Spread

/-! ## Scans -/

/-- The given number of indices, one after the other. -/
def consecutive : Int64 → Nat → List Int64
  | _, 0 => []
  | first, count + 1 => first :: consecutive (first + 1) count

/-- As many indices are consecutive as were asked for. -/
@[simp]
theorem length_consecutive (first : Int64) (count : Nat) :
    (consecutive first count).length = count := by
  induction count generalizing first with
  | zero => rfl
  | succ count ih => rw [consecutive, List.length_cons, ih]

/-- Whether indices increase strictly. -/
abbrev Ascending (present : List Int64) : Prop :=
  present.Pairwise fun a b => a.toInt < b.toInt

/-- The indices that follow one another lie in their interval. -/
theorem mem_consecutive {first index : Int64} {count : Nat}
    (hroom : first.toInt + count ≤ 9223372036854775808) (h : index ∈ consecutive first count) :
    first.toInt ≤ index.toInt ∧ index.toInt < first.toInt + count := by
  induction count generalizing first with
  | zero => cases h
  | succ count ih =>
      rw [consecutive] at h
      rcases List.mem_cons.mp h with rfl | h
      · omega
      · cases count with
        | zero => cases h
        | succ count =>
            have hnext := @toInt_add_one first (by omega)
            have hbounds := ih (by omega) h
            omega

/-- The indices that follow one another are all those in their interval. -/
theorem mem_consecutive_iff {first index : Int64} {count : Nat}
    (hroom : first.toInt + count ≤ 9223372036854775808) :
    index ∈ consecutive first count ↔
      first.toInt ≤ index.toInt ∧ index.toInt < first.toInt + count := by
  refine ⟨mem_consecutive hroom, ?_⟩
  induction count generalizing first with
  | zero => omega
  | succ count ih =>
      rintro ⟨hlow, hhigh⟩
      rw [consecutive, List.mem_cons]
      by_cases hfirst : index = first
      · exact Or.inl hfirst
      · right
        have hne : index.toInt ≠ first.toInt := fun heq => hfirst (Int64.toInt_inj.mp heq)
        have htop : index.toInt ≤ 9223372036854775807 := index.toInt_le
        have hnext := @toInt_add_one first (by omega)
        exact ih (by omega) ⟨by omega, by omega⟩

/-- Consecutive indices ascend as long as they do not wrap around. -/
theorem ascending_consecutive {first : Int64} {count : Nat}
    (hroom : first.toInt + count ≤ 9223372036854775808) :
    Ascending (consecutive first count) := by
  induction count generalizing first with
  | zero => exact .nil
  | succ count ih =>
      rw [consecutive]
      cases count with
      | zero => exact List.pairwise_singleton _ _
      | succ count =>
          have hnext := @toInt_add_one first (by omega)
          refine List.pairwise_cons.mpr ⟨fun index hindex => ?_, ih (by omega)⟩
          have hbounds := mem_consecutive (by omega) hindex
          omega

/-- The rows of items at the given indices. -/
def rows (key : String) (present : List Int64) (items : List Bytes) : List Row :=
  List.zipWith (fun index item => (Key.listItem key index, item)) present items

/-- Rows at increasing indices lie in the order of a table. -/
theorem sorted_rows (key : String) {present : List Int64} (h : Ascending present)
    (items : List Bytes) : Rows.Sorted (rows key present items) := by
  induction present generalizing items with
  | nil => exact .nil
  | cons index present ih =>
      cases items with
      | nil => exact .nil
      | cons item items =>
          have htail := List.pairwise_cons.mp h
          refine List.pairwise_cons.mpr ⟨fun row hrow => ?_, ih htail.2 items⟩
          obtain ⟨position, hposition, rfl⟩ := List.mem_iff_getElem.mp hrow
          simp only [List.length_zipWith] at hposition
          rw [List.getElem_zipWith, Key.listItem_lt_iff]
          exact htail.1 _ (List.getElem_mem _)

/-- The rows of items at consecutive indices, by the index and the offset. -/
theorem mem_rows_consecutive {key : String} {first : Int64} {items : List Bytes} {row : Row}
    (hroom : first.toInt + items.length ≤ 9223372036854775808) :
    row ∈ rows key (consecutive first items.length) items ↔
      ∃ index, row.1 = Key.listItem key index ∧
        slot items (index.toInt - first.toInt) = some row.2 := by
  induction items generalizing first with
  | nil => simp [rows, slot_nil]
  | cons item items ih =>
      rw [List.length_cons] at hroom
      have hshift : ∀ index : Int64, slot items (index.toInt - (first + 1).toInt)
          = slot items (index.toInt - first.toInt - 1) := by
        intro index
        cases items with
        | nil => rw [slot_nil, slot_nil]
        | cons _ items =>
            rw [List.length_cons] at hroom
            have hoffset : index.toInt - (first + 1).toInt = index.toInt - first.toInt - 1 := by
              rw [toInt_add_one (by omega)]
              omega
            rw [hoffset]
      have hnext : (first + 1).toInt + items.length ≤ 9223372036854775808 := by
        cases items with
        | nil =>
            have hhigh : (first + 1).toInt ≤ 9223372036854775807 := (first + 1).toInt_le
            simp only [List.length_nil]
            omega
        | cons _ items =>
            rw [List.length_cons] at hroom ⊢
            rw [toInt_add_one (by omega)]
            omega
      have hmem : row ∈ rows key (consecutive first (item :: items).length) (item :: items) ↔
          row = (Key.listItem key first, item) ∨
            row ∈ rows key (consecutive (first + 1) items.length) items :=
        List.mem_cons
      rw [hmem, ih hnext]
      simp only [hshift, slot_cons]
      constructor
      · rintro (rfl | ⟨index, hkey, hslot⟩)
        · exact ⟨first, rfl, by rw [if_pos (by omega)]⟩
        · refine ⟨index, hkey, ?_⟩
          have hoffset : index.toInt - first.toInt ≠ 0 := by
            intro hzero
            rw [slot_of_neg _ (by omega)] at hslot
            cases hslot
          rw [if_neg hoffset, hslot]
      · rintro ⟨index, hkey, hslot⟩
        split at hslot
        · rename_i hzero
          left
          have hindex : index = first := Int64.toInt_inj.mp (by omega)
          cases hslot
          rw [← hindex, ← hkey]
        · exact Or.inr ⟨index, hkey, hslot⟩

/-- A scan of a list meets its items in order. -/
theorem Spread.rowsUnder_eq {table : Table} {key : String} {first : Int64} {items : List Bytes}
    (h : Spread table key first.toInt items)
    (hroom : first.toInt + items.length ≤ 9223372036854775808) :
    table.rowsUnder (Key.itemStem key .list) =
      rows key (consecutive first items.length) items := by
  apply Table.rowsUnder_eq_of_sorted (sorted_rows key (ascending_consecutive hroom) items)
  intro row
  rw [mem_rows_consecutive hroom]
  constructor
  · rintro ⟨index, hkey, hslot⟩
    rw [hkey, h.at_index, hslot]
    exact ⟨rfl, Key.itemStem_prefix_listItem key index⟩
  · rintro ⟨hget, hstem⟩
    obtain ⟨index, hkey⟩ := h.is_item row.1 hstem (by rw [hget]; exact Option.some_ne_none _)
    refine ⟨index, hkey, ?_⟩
    rw [← h.at_index, ← hkey, hget]

/-! ## Stored lists -/

/-- Whether metadata is that of a list with the given number of items. -/
structure Describes (handle : ListHandle) (count : Nat) : Prop where
  length : handle.length.toInt = count
  tail : handle.tail.toInt = handle.head.toInt + count - 1
  empty : count = 0 → handle = .empty

namespace Describes

variable {handle : ListHandle} {count : Nat}

/-- Metadata that describes a list can be stored. -/
theorem storable (h : Describes handle count) : (Value.list handle).Storable := by
  have hlength := h.length
  by_cases hcount : count = 0
  · exact Or.inl (h.empty hcount)
  · right
    omega

/-- The items of a list fit in front of the last index. -/
theorem room (h : Describes handle count) :
    handle.head.toInt + count ≤ 9223372036854775808 := by
  have htail := h.tail
  have hhigh : handle.tail.toInt ≤ 9223372036854775807 := handle.tail.toInt_le
  omega

/-- A list is empty exactly if its metadata counts no items. -/
theorem length_eq_zero_iff (h : Describes handle count) : handle.length = 0 ↔ count = 0 := by
  have hlength := h.length
  have hzero : (0 : Int64).toInt = 0 := rfl
  rw [← Int64.toInt_inj, hlength, hzero]
  omega

/-- The indices between the ends are as many as the items. -/
theorem spanLength_eq (h : Describes handle count) :
    Store.spanLength handle.head handle.tail = count := by
  have htail := h.tail
  rw [Store.spanLength]
  omega

end Describes

/-- The first metadata of a list describes no items. -/
theorem describes_empty : Describes .empty 0 :=
  ⟨rfl, rfl, fun _ => rfl⟩

/-- Whether the indices of metadata lie where the given number of pushes can
have brought them. -/
def Near (handle : ListHandle) (steps : Nat) : Prop :=
  -(steps : Int) ≤ handle.head.toInt ∧ handle.tail.toInt < steps

/-- It lies near the middle of all indices, whatever was pushed. -/
theorem near_empty (steps : Nat) : Near .empty steps := by
  have hhead : ListHandle.empty.head.toInt = 0 := rfl
  have htail : ListHandle.empty.tail.toInt = -1 := rfl
  constructor <;> omega

/-- Fewer pushes than there are indices end in front of the last index. -/
theorem Near.tail_lt {handle : ListHandle} {steps : Nat} (h : Near handle steps)
    (hsteps : steps ≤ 9223372036854775807) : handle.tail.toInt < 9223372036854775807 := by
  have htail := h.2
  omega

/-- Another push allows as much. -/
theorem Near.succ {handle : ListHandle} {steps : Nat} (h : Near handle steps) :
    Near handle (steps + 1) := by
  rcases h with ⟨hhead, htail⟩
  constructor <;> push_cast <;> omega

/-- Whether the list at the key is the given one: its metadata, its expiry and
the contents of its items.  Under the other stems lies nothing. -/
structure Stored (table : Table) (key : String) (handle : ListHandle)
    (expireAt : Option Instant) (items : List Bytes) : Prop where
  frame : table.HasFrame (Key.ofText key) ⟨.list handle, expireAt⟩
  describes : Describes handle items.length
  spread : Spread table key handle.head.toInt items
  bare : ∀ marker ≠ Key.Marker.list, table.countUnder (Key.itemStem key marker) = 0

namespace Stored

variable {table : Table} {key : String} {handle : ListHandle} {expireAt : Option Instant}
  {items : List Bytes}

/-- There are as many rows under the stem of a list as it has items. -/
theorem countUnder_eq (h : Stored table key handle expireAt items) :
    table.countUnder (Key.itemStem key .list) = items.length := by
  rw [Table.countUnder, h.spread.rowsUnder_eq h.describes.room, rows, List.length_zipWith,
    length_consecutive, Nat.min_self]

/-- Metadata that describes items can be written with the expiry of the list. -/
theorem exists_encode (h : Stored table key handle expireAt items) (next : ListHandle) :
    ∃ bytes, Frame.encode ⟨.list next, expireAt⟩ = .ok bytes :=
  Frame.exists_encode rfl h.frame.asStored_expireAt

/-- What is stored once the metadata was written over items that it describes. -/
theorem of_insert_ofText {contents : Bytes}
    (hencode : Frame.encode ⟨.list handle, expireAt⟩ = .ok contents)
    (hexpireAt : Frame.asStored expireAt = expireAt) (hdescribes : Describes handle items.length)
    (hspread : Spread table key handle.head.toInt items)
    (hbare : ∀ marker ≠ Key.Marker.list, table.countUnder (Key.itemStem key marker) = 0) :
    Stored (table.insert (Key.ofText key) contents) key handle expireAt items := by
  refine ⟨.insert table _ hencode hdescribes.storable hexpireAt, hdescribes,
    hspread.insert_ofText contents, fun marker hmarker => ?_⟩
  rw [Table.countUnder_insert_outside table contents (Key.not_itemStem_prefix_ofText key marker)]
  exact hbare marker hmarker

end Stored

end Deque
end StructuredStore
