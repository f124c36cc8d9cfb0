import StructuredStore.Store.Basic

/-!
# Sets

A set holds members, which are texts.  Each member is an item of its own; the
metadata is the number of members.
-/

namespace StructuredStore.MemberSet

/-- The key of a member's item. -/
def memberKey (key member : String) : Bytes :=
  Key.item key .set (Utf8.encode member)

/-- Creates an empty set. -/
def create (key : String) : StoreM Unit :=
  Store.create key (.set 0)

/-- Adds a member if it is not there and answers the number of members. -/
def add (key member : String) : StoreM UInt64 := do
  let (count, expireAt) ← Store.readCount key .set
  if (← Engine.get (memberKey key member)).isSome then return count
  Store.write (memberKey key member) .null none
  let count ← Store.increment count
  Store.writeCount key .set count expireAt
  return count

/-- Removes a member if it is there and answers the number of members. -/
def remove (key member : String) : StoreM UInt64 := do
  let (count, expireAt) ← Store.readCount key .set
  if (← Engine.get (memberKey key member)).isNone then return count
  Engine.delete (memberKey key member)
  Store.writeCount key .set (Store.decrement count) expireAt
  return Store.decrement count

/-- Whether a text is a member. -/
def contains (key member : String) : StoreM Bool := do
  let _ ← Store.readCount key .set
  return (← Engine.get (memberKey key member)).isSome

/-- The number of members. -/
def size (key : String) : StoreM UInt64 := do
  return (← Store.readCount key .set).1

/-- The member of an item. -/
def readMember (key : String) (row : Row) : Except DataError String :=
  match Utf8.decode? (row.1.drop (Key.itemStem key .set).length) with
  | none => .error (.corrupt (.setMember key))
  | some member => .ok member

/-- All members, in bytewise order. -/
def members (key : String) : StoreM (List String) := do
  let _ ← Store.readCount key .set
  let rows ← Engine.scan (Key.itemStem key .set)
  Store.lift (rows.mapM (readMember key))

/-- Removes every member, then the set itself. -/
def delete (key : String) : StoreM Unit :=
  Store.deleteAs key .set

end StructuredStore.MemberSet
