import StructuredStore.Store.Basic

/-!
# Time series

A series holds at most one value for each instant.  Each point is an item of
its own, and the items lie in the order of time; the metadata is the number of
points.
-/

namespace StructuredStore.Series

/-- The key of the point at an instant. -/
def pointKey (key : String) (instant : Instant) : StoreM Bytes := do
  return Key.item key .series (← Store.lift (Key.instantSelector instant))

/-- Creates an empty series. -/
def create (key : String) : StoreM Unit :=
  Store.create key (.series 0)

/-- Records a value at an instant, over the one already there, and answers the
number of points. -/
def add (key : String) (instant : Instant) (value : Value) : StoreM UInt64 := do
  let (count, expireAt) ← Store.readCount key .series
  let point ← pointKey key instant
  let known := (← Engine.get point).isSome
  Store.write point value none
  if known then return count
  let count ← Store.increment count
  Store.writeCount key .series count expireAt
  return count

/-- The value at an instant. -/
def get (key : String) (instant : Instant) : StoreM Value := do
  let _ ← Store.readCount key .series
  let point ← pointKey key instant
  return (← Store.readExisting point).value

/-- Removes the point at an instant if it is there and answers the number of
points. -/
def remove (key : String) (instant : Instant) : StoreM UInt64 := do
  let (count, expireAt) ← Store.readCount key .series
  let point ← pointKey key instant
  if (← Engine.get point).isNone then return count
  Engine.delete point
  Store.writeCount key .series (Store.decrement count) expireAt
  return Store.decrement count

/-- The selector of an item of the series. -/
def selectorOf (key : String) (row : Row) : Bytes :=
  row.1.drop (Key.itemStem key .series).length

/-- The instant and the value of an item. -/
def readPoint (key : String) (row : Row) : Except DataError (Instant × Value) := do
  let instant ← Key.ofInstantSelector (selectorOf key row)
  let frame ← Frame.decode row.2
  return (instant, frame.value)

/-- Collects, newest first, the rows whose selector lies between two others,
and stops behind the upper one. -/
def collectBetween (key : String) (lower upper : Bytes) (rows : List Row) (row : Row) :
    List Row × Table.Visit :=
  let selector := selectorOf key row
  if selector < lower then (rows, .proceed)
  else if upper < selector then (rows, .stop)
  else (row :: rows, .proceed)

/-- All points from one instant to another, oldest first. -/
def range (key : String) (start stop : Instant) : StoreM (List (Instant × Value)) := do
  let _ ← Store.readCount key .series
  if stop < start then return []
  let lower ← Store.lift (Key.instantSelector start)
  let upper ← Store.lift (Key.instantSelector stop)
  let rows ←
    Engine.visitUnder (Key.itemStem key .series) (collectBetween key lower upper) []
  Store.lift (rows.reverse.mapM (readPoint key))

/-- The newest point, if there is any. -/
def latest (key : String) : StoreM (Option (Instant × Value)) := do
  let _ ← Store.readCount key .series
  let last ←
    Engine.visitUnder (Key.itemStem key .series) (fun _ row => (some row, .proceed)) none
  match last with
  | none => return none
  | some row => return some (← Store.lift (readPoint key row))

/-- The number of points. -/
def size (key : String) : StoreM UInt64 := do
  return (← Store.readCount key .series).1

/-- Removes every point, then the series itself. -/
def delete (key : String) : StoreM Unit :=
  Store.deleteAs key .series

end StructuredStore.Series
