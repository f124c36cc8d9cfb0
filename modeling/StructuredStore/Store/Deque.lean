import StructuredStore.Store.Basic

/-!
# Lists

A list is open at both ends.  Its items lie at the indices from the head to the
tail of its metadata; pushing on the left goes below the head, so indices may
be negative.  Positions count from zero on the left or from minus one on the
right.

Pushing checks its sums.  The other operations do not: metadata that no
operation wrote may send a sum out of the range of 64-bit numbers, and may
promise more items than a buffer can hold.  Both break the operation off.
-/

namespace StructuredStore.Deque

/-- An end of a list. -/
inductive End where
  | left
  | right
deriving DecidableEq, Repr

/-! ## Positions -/

/-- A position counted from the left. -/
def normalize (position length : Int) : Int :=
  if position < 0 then length + position else position

/-- The positions from `start` to `stop`, clamped to the list, if there are any. -/
def span? (start stop length : Int) : Option (Int × Int) :=
  let first := max (normalize start length) 0
  let last := min (normalize stop length) (length - 1)
  if length = 0 ∨ last < first then none else some (first, last)

/-! ## Metadata and items -/

/-- The metadata of a list and its expiry. -/
def readHandle (key : String) : StoreM (ListHandle × Option Instant) := do
  let frame ← Store.readAs (Key.ofText key) .list
  match frame.value with
  | .list handle => return (handle, frame.expireAt)
  | other => throw (Store.mismatch .list other)

/-- Writes the metadata of a list. -/
def writeHandle (key : String) (handle : ListHandle) (expireAt : Option Instant) :
    StoreM Unit :=
  Store.write (Key.ofText key) (.list handle) expireAt

/-- The item at an index, if there is one. -/
def readItem (key : String) (index : Int64) : StoreM (Option Value) := do
  return (← Store.read (Key.listItem key index)).map (·.value)

/-- Writes the item at an index. -/
def writeItem (key : String) (index : Int64) (value : Value) : StoreM Unit :=
  Store.write (Key.listItem key index) value none

/-- The item at an index that the metadata promises. -/
def requireItem (key : String) (index : Int64) : StoreM Value := do
  match ← readItem key index with
  | some value => return value
  | none => throw (.corrupt (.missingItem key index))

/-! ## Breaking off -/

/-- The result of unchecked arithmetic, which breaks off outside the range of 64-bit
numbers. -/
def inRange (cause : Abort) (result : Int) : StoreM Int64 :=
  if -9223372036854775808 ≤ result ∧ result ≤ 9223372036854775807 then
    pure (Int64.ofInt result)
  else throw (.aborted cause)

/-- An unchecked sum. -/
def sum (a : Int64) (i : Int) : StoreM Int64 := inRange .sum (a.toInt + i)

/-- An unchecked difference. -/
def difference (a : Int64) (i : Int) : StoreM Int64 := inRange .difference (a.toInt - i)

/-- The most items that a buffer can hold: at eighty bytes each, half of all 64-bit
addresses. -/
def maxItems : Nat := 115292150460684697

/-- Sets up a buffer for items of a list.  It breaks off if the buffer would be too
large for items that are not there.  Items that are all there take up more memory
than the buffer for them, so no machine holds too many for a buffer; how much memory
the machine has is left out otherwise. -/
def reserve (key : String) (count : Nat) : StoreM Unit := do
  let table := (← get).table
  if maxItems < count ∧ (table.rowsUnder (Key.itemStem key .list)).length < count then
    throw (.aborted .buffer)

/-! ## Operations -/

/-- Creates an empty list. -/
def create (key : String) : StoreM Unit :=
  Store.create key (.list .empty)

/-- The metadata with one more item at an end, and the index of that item. -/
def grow (handle : ListHandle) : End → StoreM (ListHandle × Int64)
  | side => do
      if handle.length = Int64.maxValue then throw .overflow
      match side with
      | .left =>
          if handle.head = Int64.minValue then throw .overflow
          return ({ handle with head := handle.head - 1, length := handle.length + 1 },
            handle.head - 1)
      | .right =>
          if handle.tail = Int64.maxValue then throw .overflow
          return ({ handle with tail := handle.tail + 1, length := handle.length + 1 },
            handle.tail + 1)

/-- Adds an item at an end and answers the new length. -/
def push (key : String) (value : Value) (side : End) : StoreM Int64 := do
  let (handle, expireAt) ← readHandle key
  let (grown, index) ← grow handle side
  writeItem key index value
  writeHandle key grown expireAt
  return grown.length

/-- Adds an item on the right of a list that is created if the key is absent. -/
def pushRightCreating (key : String) (value : Value) : StoreM Int64 := do
  if (← Store.read (Key.ofText key)).isNone then writeHandle key .empty none
  push key value .right

/-- The metadata with one item less at an end. -/
def shrink (handle : ListHandle) (side : End) : StoreM ListHandle := do
  if handle.length = 1 then return .empty
  match side with
  | .left =>
      return { handle with head := ← sum handle.head 1, length := handle.length - 1 }
  | .right =>
      return { handle with tail := ← difference handle.tail 1, length := handle.length - 1 }

/-- Removes the item at an end and answers it. -/
def pop (key : String) (side : End) : StoreM Value := do
  let (handle, expireAt) ← readHandle key
  if handle.length = 0 then throw .empty
  let index := match side with
    | .left => handle.head
    | .right => handle.tail
  let value ← requireItem key index
  Engine.delete (Key.listItem key index)
  writeHandle key (← shrink handle side) expireAt
  return value

/-- The index of the item at a position of the list. -/
def locate (handle : ListHandle) (position : Int64) : StoreM Int64 :=
  let offset := normalize position.toInt handle.length.toInt
  if offset < 0 ∨ handle.length.toInt ≤ offset then throw .outOfRange
  else sum handle.head offset

/-- The item at a position. -/
def get (key : String) (position : Int64) : StoreM Value := do
  let (handle, _) ← readHandle key
  requireItem key (← locate handle position)

/-- Replaces the item at a position. -/
def set (key : String) (position : Int64) (value : Value) : StoreM Unit := do
  let (handle, _) ← readHandle key
  writeItem key (← locate handle position) value

/-- The items at `count` offsets from `offset` on; absent ones are passed over. -/
def readItems (key : String) (head : Int64) : Int → Nat → StoreM (List Value)
  | _, 0 => pure []
  | offset, count + 1 => do
      let item ← readItem key (← sum head offset)
      let rest ← readItems key head (offset + 1) count
      return item.toList ++ rest

/-- The items from one position to another. -/
def range (key : String) (start stop : Int64) : StoreM (List Value) := do
  let (handle, _) ← readHandle key
  match span? start.toInt stop.toInt handle.length.toInt with
  | none => return []
  | some (first, last) =>
      let count := (last - first + 1).toNat
      reserve key count
      readItems key handle.head first count

/-- Keeps only the items from one position to another. -/
def trim (key : String) (start stop : Int64) : StoreM Unit := do
  let (handle, expireAt) ← readHandle key
  if handle.length = 0 then return
  match span? start.toInt stop.toInt handle.length.toInt with
  | none =>
      Store.removeIndices key handle.head (Store.spanLength handle.head handle.tail)
      writeHandle key .empty expireAt
  | some (first, last) =>
      let head ← sum handle.head first
      let tail ← sum handle.head last
      Store.removeIndices key handle.head (head.toInt - handle.head.toInt).toNat
      let next ← sum tail 1
      Store.removeIndices key next (Store.spanLength next handle.tail)
      writeHandle key ⟨head, tail, Int64.ofInt (last - first + 1)⟩ expireAt

/-- Reads and removes the items at `count` indices from `index` on. -/
def drain (key : String) : Int64 → Nat → StoreM (List Value)
  | _, 0 => pure []
  | index, count + 1 => do
      let item ← readItem key index
      Engine.delete (Key.listItem key index)
      let rest ← drain key (index + 1) count
      return item.toList ++ rest

/-- Removes the whole list and answers its items; an absent list has none. -/
def takeAll (key : String) : StoreM (List Value) := do
  match ← Engine.get (Key.ofText key) with
  | none => return []
  | some bytes =>
      let frame ← Store.lift (Frame.decodeAs .list bytes)
      match frame.value with
      | .list handle =>
          reserve key handle.length.toInt.toNat
          let items ←
            if handle.length = 0 then pure []
            else drain key handle.head (Store.spanLength handle.head handle.tail)
          Engine.delete (Key.ofText key)
          return items
      | other => throw (Store.mismatch .list other)

/-- The number of items. -/
def length (key : String) : StoreM Int64 := do
  return (← readHandle key).1.length

/-- Removes every item, then the list itself. -/
def delete (key : String) : StoreM Unit :=
  Store.deleteAs key .list

end StructuredStore.Deque
