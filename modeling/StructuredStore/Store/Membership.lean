import StructuredStore.Hash.Metro
import StructuredStore.Store.Basic

/-!
# Membership filters

A filter answers whether an item was added.  Each item is stored under its own
text together with a vector of hashes of the text and the filter's salt, so
that answers are exact.  The metadata is the number of hashes, the salt and the
number of items.
-/

namespace StructuredStore.Membership

/-- The number of hashes per item unless another one is asked for. -/
def defaultSlots : UInt8 := 3

/-- The least number of hashes per item. -/
def minSlots : UInt8 := 3

/-- The greatest number of hashes per item. -/
def maxSlots : UInt8 := 5

/-- The seed of the hash. -/
def seed : UInt64 := 0x385f829f00313111

/-- The odd number nearest to two to the power of 64 over the golden ratio. -/
def golden : UInt64 := 0x9e3779b97f4a7c15

/-- A first hash followed by its products with powers of `golden`. -/
def multiples (hash : UInt64) : Nat → Bytes
  | 0 => []
  | count + 1 => Bytes.littleEndian 8 hash.toNat ++ multiples (hash * golden) count

/-- The vector of hashes of an item. -/
def slotVector (item salt : String) (slots : UInt8) : Bytes :=
  multiples (Metro.hash seed (Utf8.encode item ++ Utf8.encode salt)) slots.toNat

/-- The key under which an item is stored. -/
def itemKey (key item : String) : Bytes :=
  Key.item key .bloom (Utf8.encode item)

/-- The metadata of a filter and its expiry. -/
def readHandle (key : String) : StoreM (BloomHandle × Option Instant) := do
  let frame ← Store.readAs (Key.ofText key) .bloom
  match frame.value with
  | .bloom handle => return (handle, frame.expireAt)
  | other => throw (Store.mismatch .bloom other)

/-- Writes the metadata of a filter. -/
def writeHandle (key : String) (handle : BloomHandle) (expireAt : Option Instant) :
    StoreM Unit :=
  Store.write (Key.ofText key) (.bloom handle) expireAt

/-- Creates an empty filter with the given salt. -/
def create (key : String) (slots : Option UInt8) (salt : String) : StoreM Unit := do
  let slots := slots.getD defaultSlots
  if slots < minSlots ∨ maxSlots < slots then throw .outOfRange
  Store.create key (.bloom ⟨slots, salt, 0⟩)

/-- Adds an item and answers the number of different items. -/
def add (key item : String) : StoreM UInt64 := do
  let (handle, expireAt) ← readHandle key
  let known := (← Engine.get (itemKey key item)).isSome
  Store.write (itemKey key item) (.binary (slotVector item handle.salt handle.slots)) none
  if known then return handle.count
  let count ← Store.increment handle.count
  writeHandle key { handle with count } expireAt
  return count

/-- Whether an item was added. -/
def contains (key item : String) : StoreM Bool := do
  let (handle, _) ← readHandle key
  match ← Store.read (itemKey key item) with
  | none => return false
  | some frame =>
      return frame.value = .binary (slotVector item handle.salt handle.slots)

/-- The number of different items. -/
def size (key : String) : StoreM UInt64 := do
  return (← readHandle key).1.count

/-- Forgets every item but keeps the filter, its number of hashes and its salt. -/
def clear (key : String) : StoreM Unit := do
  let (handle, expireAt) ← readHandle key
  Store.removeItems key .bloom
  writeHandle key { handle with count := 0 } expireAt

/-- Removes every item, then the filter itself. -/
def delete (key : String) : StoreM Unit :=
  Store.deleteAs key .bloom

end StructuredStore.Membership
