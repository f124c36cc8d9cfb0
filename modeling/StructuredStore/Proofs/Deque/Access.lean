import StructuredStore.Proofs.Deque.Layout
import StructuredStore.Proofs.Deque.Limits

/-!
# Reading lists

What the operations that look at a list answer, in terms of the contents of its
items: one item by its position, or a part of the list.

Main results:

- `run_get`: the item at a position, or that there is none.
- `run_range`: the items from one position to another.
-/

namespace StructuredStore.Deque

open Engine Store

variable {table : Table} {key : String} {handle : ListHandle} {expireAt : Option Instant}
  {items : List Bytes}

/-! ## Metadata -/

/-- Reading the handle of a list gives what its metadata says. -/
theorem run_readHandle (h : table.HasFrame (Key.ofText key) ⟨.list handle, expireAt⟩) :
    (readHandle key).run (ofTable table) = (.ok (handle, expireAt), ofTable table) := by
  have hread : (readAs (Key.ofText key) .list).run (ofTable table)
      = (.ok ⟨.list handle, expireAt⟩, ofTable table) := run_readAs h
  rw [readHandle, run_bind_ok hread]
  rfl

/-- Reading the handle of a list that is not there is `notFound`. -/
theorem run_readHandle_none (h : table.get? (Key.ofText key) = none) :
    (readHandle key).run (ofTable table) = (.error .notFound, ofTable table) := by
  rw [readHandle, run_bind_error (run_readAs_none .list h)]

/-- The metadata of a list is found, or its reading fails. -/
theorem ends_readHandle (table : Table) (key : String) :
    Ends table (readHandle key) fun outcome after => after = table ∧
      ∀ found, outcome = .ok found →
        table.HasFrame (Key.ofText key) ⟨.list found.1, found.2⟩ := by
  refine .bind (ends_readAs table _ .list) ?_ ?_
  · rintro e between ⟨rfl, _⟩
    exact ⟨rfl, fun _ h => by cases h⟩
  · rintro ⟨value, expireAt⟩ between ⟨rfl, hframe⟩
    obtain ⟨hframe, hkind⟩ := hframe _ rfl
    cases value with
    | list handle => exact .pure ⟨rfl, fun _ h => by cases h; exact hframe⟩
    | _ => cases hkind

/-! ## One item -/

/-- The value of an item, or why it cannot be read. -/
def valueOf (item : Bytes) : Except StoreError Value :=
  match Frame.decode item with
  | .ok frame => .ok frame.value
  | .error fault => .error (.ofData fault)

theorem valueOf_of_decode {item : Bytes} {frame : Frame} (h : Frame.decode item = .ok frame) :
    valueOf item = .ok frame.value := by
  rw [valueOf, h]

/-- Reading an item gives the value its row decodes to, or the decoder's fault. -/
theorem run_readItem {index : Int64} {item : Bytes}
    (h : table.get? (Key.listItem key index) = some item) :
    (readItem key index).run (ofTable table) = ((valueOf item).map some, ofTable table) := by
  cases hdecode : Frame.decode item with
  | error fault =>
      rw [readItem, run_bind_error (run_read_error h hdecode), valueOf, hdecode]
      rfl
  | ok frame =>
      rw [readItem, run_bind_ok (run_read ⟨item, h, hdecode⟩), valueOf, hdecode]
      rfl

/-- The item that the metadata promises is read, or is broken. -/
theorem run_requireItem {index : Int64} {item : Bytes}
    (h : table.get? (Key.listItem key index) = some item) :
    (requireItem key index).run (ofTable table) = (valueOf item, ofTable table) := by
  have hread := run_readItem h
  cases hvalue : valueOf item with
  | error e =>
      rw [hvalue] at hread
      rw [requireItem, run_bind_error hread]
  | ok value =>
      rw [hvalue] at hread
      rw [requireItem, run_bind_ok hread]
      rfl

/-! ## Positions -/

/-- The offset from the head of a position, if the list reaches there. -/
def place? (length : Nat) (position : Int64) : Option Nat :=
  let place := normalize position.toInt length
  if 0 ≤ place ∧ place < length then some place.toNat else none

/-- A position that is found lies in the list. -/
theorem lt_of_place? {length place : Nat} {position : Int64}
    (h : place? length position = some place) : place < length := by
  simp only [place?] at h
  split at h
  · cases h
    omega
  · cases h

/-- Every index of a list is a 64-bit number. -/
theorem Describes.fits {count : Nat} (h : Describes handle count) {offset : Int}
    (hlow : 0 ≤ offset) (hhigh : offset < count) : FitsInt64 (handle.head.toInt + offset) := by
  have hroom := h.room
  have hbelow : -9223372036854775808 ≤ handle.head.toInt := handle.head.le_toInt
  exact ⟨by omega, by omega⟩

/-- A position of a list is located at its offset from the head. -/
theorem run_locate {count : Nat} (h : Describes handle count) (position : Int64)
    (engine : Engine) :
    ∃ outcome, (locate handle position).run engine = (outcome, engine) ∧
      match place? count position with
      | none => outcome = .error .outOfRange
      | some place => ∃ index : Int64, outcome = .ok index ∧
          index.toInt = handle.head.toInt + place := by
  simp only [locate, place?, h.length]
  by_cases hin : 0 ≤ normalize position.toInt count ∧ normalize position.toInt count < count
  · obtain ⟨index, hsum, hindex⟩ := exists_sum_eq (h.fits hin.1 hin.2)
    rw [if_neg (by omega), if_pos hin, hsum]
    refine ⟨_, rfl, index, rfl, ?_⟩
    rw [hindex]
    omega
  · rw [if_pos (by omega), if_neg hin]
    exact ⟨_, rfl, rfl⟩

/-- The item at a position lies at its offset from the head. -/
theorem Stored.get?_place (h : Stored table key handle expireAt items) {index : Int64}
    {place : Nat} (hindex : index.toInt = handle.head.toInt + place) :
    table.get? (Key.listItem key index) = items[place]? := by
  have hoffset : index.toInt - handle.head.toInt = place := by omega
  rw [h.spread.at_index, hoffset, slot, if_pos (by omega), Int.toNat_natCast]

/-- A read by position finds the item there, or no such position. -/
theorem run_get (h : Stored table key handle expireAt items) (position : Int64) :
    (get key position).run (ofTable table) =
      (match (place? items.length position).bind (items[·]?) with
        | none => .error .outOfRange
        | some item => valueOf item,
      ofTable table) := by
  obtain ⟨outcome, hlocate, houtcome⟩ := run_locate h.describes position (ofTable table)
  rw [get, run_bind_ok (run_readHandle h.frame)]
  cases hplace : place? items.length position with
  | none =>
      rw [hplace] at houtcome
      subst houtcome
      exact run_bind_error hlocate
  | some place =>
      rw [hplace] at houtcome
      obtain ⟨index, rfl, hindex⟩ := houtcome
      have hget := h.get?_place hindex
      have hlt := lt_of_place? hplace
      rw [List.getElem?_eq_getElem hlt] at hget
      simp only [Option.bind_some, List.getElem?_eq_getElem hlt]
      rw [run_bind_ok hlocate]
      exact run_requireItem hget

/-! ## Parts -/

/-- Whether the items lie at consecutive indices from `first` on. -/
def Lies (table : Table) (key : String) (first : Int) (items : List Bytes) : Prop :=
  ∀ (offset : Nat) (item : Bytes) (index : Int64), items[offset]? = some item →
    index.toInt = first + offset → table.get? (Key.listItem key index) = some item

/-- Items spread over a list lie where the list says. -/
theorem Spread.lies {head : Int} (h : Spread table key head items) :
    Lies table key head items := by
  intro offset item index hitem hindex
  have hoffset : index.toInt - head = offset := by omega
  rw [h.at_index, hoffset, slot, if_pos (by omega), Int.toNat_natCast, hitem]

/-- A part of what lies at consecutive indices does so too. -/
theorem Lies.part {first : Int} (h : Lies table key first items) (skipped count : Nat) :
    Lies table key (first + skipped) ((items.drop skipped).take count) := by
  intro offset item index hitem hindex
  refine h (skipped + offset) item index ?_ (by push_cast; omega)
  rw [List.getElem?_take] at hitem
  split at hitem
  · rwa [List.getElem?_drop] at hitem
  · cases hitem

/-- The items behind the first lie one place on. -/
theorem Lies.tail {first : Int} {item : Bytes} (h : Lies table key first (item :: items)) :
    Lies table key (first + 1) items := by
  intro offset other index hitem hindex
  exact h (offset + 1) other index (by simpa using hitem) (by push_cast; omega)

/-- Whether every item can be read, and as the value at its place. -/
def Holding (items : List Bytes) (values : List Value) : Prop :=
  items.map Frame.decode = values.map fun value => .ok ⟨value, none⟩

namespace Holding

variable {values : List Value}

/-- There are as many items as values. -/
theorem length_eq (h : Holding items values) : items.length = values.length := by
  have hlength := congrArg List.length h
  simpa using hlength

/-- A stretch of the items holds the same stretch of the values. -/
theorem part (h : Holding items values) (first count : Nat) :
    Holding ((items.drop first).take count) ((values.drop first).take count) := by
  unfold Holding at h ⊢
  rw [List.map_take, List.map_drop, h, List.map_take, List.map_drop]

theorem getElem? (h : Holding items values) (place : Nat) :
    items[place]?.map Frame.decode = values[place]?.map fun value => .ok ⟨value, none⟩ := by
  have hplace := congrArg (fun list => list[place]?) h
  simpa using hplace

theorem cons_iff {item : Bytes} {value : Value} :
    Holding (item :: items) (value :: values) ↔
      Frame.decode item = .ok ⟨value, none⟩ ∧ Holding items values := by
  simp [Holding]

end Holding

/-- Items at consecutive indices are read in order. -/
theorem run_readItems {head : Int64} {offset : Int} {values : List Value}
    (h : Lies table key (head.toInt + offset) items)
    (hlow : -9223372036854775808 ≤ head.toInt + offset)
    (hroom : head.toInt + offset + items.length ≤ 9223372036854775808)
    (hvalues : Holding items values) :
    (readItems key head offset items.length).run (ofTable table) = (.ok values, ofTable table) := by
  induction items generalizing offset values with
  | nil =>
      have hnil : values = [] := by simpa using hvalues.length_eq.symm
      rw [hnil]
      rfl
  | cons item items ih =>
      cases values with
      | nil => simpa using hvalues.length_eq
      | cons value values =>
          obtain ⟨hdecode, hrest⟩ := Holding.cons_iff.mp hvalues
          rw [List.length_cons] at hroom
          push_cast at hroom
          obtain ⟨index, hsum, hindex⟩ := exists_sum_eq (a := head) (i := offset) ⟨hlow, by omega⟩
          have hread := run_readItem (h 0 item index rfl (by rw [hindex]; simp))
          rw [valueOf_of_decode hdecode] at hread
          have htail : Lies table key (head.toInt + (offset + 1)) items := by
            rw [← Int.add_assoc]
            exact h.tail
          have hnext := ih htail (by omega) (by omega) hrest
          rw [List.length_cons, readItems, hsum, pure_bind, run_bind_ok hread, run_bind_ok hnext]
          rfl

/-- The part of a list that a span of positions stands for. -/
def part {α : Type} (list : List α) : Option (Int × Int) → List α
  | none => []
  | some (first, last) => (list.drop first.toNat).take (last - first + 1).toNat

/-- A part of a list is no longer than the list. -/
theorem length_part_le {α : Type} (list : List α) (span : Option (Int × Int)) :
    (part list span).length ≤ list.length := by
  cases span with
  | none => exact Nat.zero_le _
  | some span =>
      rw [part, List.length_take, List.length_drop]
      omega

/-- A span lies within the list. -/
theorem span?_eq_some {start stop length first last : Int}
    (h : span? start stop length = some (first, last)) :
    0 ≤ first ∧ first ≤ last ∧ last < length := by
  simp only [span?] at h
  split at h
  · cases h
  · rename_i hspan
    cases h
    omega

/-- The items from one position to another are read in order. -/
theorem run_range {values : List Value} (h : Stored table key handle expireAt items)
    (hvalues : Holding items values) (start stop : Int64) :
    (range key start stop).run (ofTable table) =
      (.ok (part values (span? start.toInt stop.toInt values.length)), ofTable table) := by
  have hlength := h.describes.length
  rw [range, run_bind_ok (run_readHandle h.frame), ← hvalues.length_eq, ← hlength]
  cases hspan : span? start.toInt stop.toInt handle.length.toInt with
  | none =>
      simp only [hspan]
      rfl
  | some span =>
      obtain ⟨first, last⟩ := span
      obtain ⟨hlow, hle, hhigh⟩ := span?_eq_some hspan
      have hroom := h.describes.room
      have hbelow : -9223372036854775808 ≤ handle.head.toInt := handle.head.le_toInt
      have hlies := h.spread.lies.part first.toNat (last - first + 1).toNat
      have hcount : ((items.drop first.toNat).take (last - first + 1).toNat).length
          = (last - first + 1).toNat := by
        rw [List.length_take, List.length_drop]
        omega
      rw [Int.toNat_of_nonneg hlow] at hlies
      have hread := run_readItems hlies (by omega) (by rw [hcount]; omega)
        (hvalues.part first.toNat (last - first + 1).toNat)
      rw [hcount] at hread
      have hbuffer : (reserve key (last - first + 1).toNat).run (ofTable table)
          = (.ok (), ofTable table) :=
        run_reserve_of_le (le_trans (by omega) h.countUnder_eq.ge)
      simp only [hspan]
      exact (run_bind_ok hbuffer).trans hread

end StructuredStore.Deque
