import StructuredStore.Store.Basic

/-!
# Maps

A map takes fields, which are texts, to values.  Each field is an item of its
own; the metadata is the number of fields.
-/

namespace StructuredStore.FieldMap

/-- The key of a field's item. -/
def fieldKey (key field : String) : Bytes :=
  Key.item key .map (Utf8.encode field)

/-- Creates an empty map. -/
def create (key : String) : StoreM Unit :=
  Store.create key (.map 0)

/-- Gives a field a value and answers the number of fields. -/
def set (key field : String) (value : Value) : StoreM UInt64 := do
  let (count, expireAt) ← Store.readCount key .map
  let known := (← Engine.get (fieldKey key field)).isSome
  Store.write (fieldKey key field) value none
  if known then return count
  let count ← Store.increment count
  Store.writeCount key .map count expireAt
  return count

/-- The value of a field. -/
def get (key field : String) : StoreM Value := do
  let _ ← Store.readCount key .map
  return (← Store.readExisting (fieldKey key field)).value

/-- Whether the map has a field. -/
def contains (key field : String) : StoreM Bool := do
  let _ ← Store.readCount key .map
  return (← Engine.get (fieldKey key field)).isSome

/-- Removes a field if it is there and answers the number of fields. -/
def remove (key field : String) : StoreM UInt64 := do
  let (count, expireAt) ← Store.readCount key .map
  if (← Engine.get (fieldKey key field)).isNone then return count
  Engine.delete (fieldKey key field)
  Store.writeCount key .map (Store.decrement count) expireAt
  return Store.decrement count

/-- The number of fields. -/
def size (key : String) : StoreM UInt64 := do
  return (← Store.readCount key .map).1

/-- The field and the value of an item. -/
def readEntry (key : String) (row : Row) : Except DataError (String × Value) :=
  match Utf8.decode? (row.1.drop (Key.itemStem key .map).length) with
  | none => .error (.corrupt (.mapField key))
  | some field => (Frame.decode row.2).map fun frame => (field, frame.value)

/-- All fields with their values, in bytewise order of the fields. -/
def entries (key : String) : StoreM (List (String × Value)) := do
  let _ ← Store.readCount key .map
  let rows ← Engine.scan (Key.itemStem key .map)
  Store.lift (rows.mapM (readEntry key))

/-- All fields. -/
def fields (key : String) : StoreM (List String) := do
  return (← entries key).map (·.1)

/-- All values, in the order of their fields. -/
def values (key : String) : StoreM (List Value) := do
  return (← entries key).map (·.2)

/-- Removes every field, then the map itself. -/
def delete (key : String) : StoreM Unit :=
  Store.deleteAs key .map

end StructuredStore.FieldMap
