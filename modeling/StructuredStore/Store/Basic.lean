import StructuredStore.Engine.Basic
import StructuredStore.Frame.Decode
import StructuredStore.Key

/-!
# Reading and writing values

The steps that all operations share: frames at physical keys, the metadata of
structures, and the removal of whatever lies at a logical key.
-/

namespace StructuredStore.Store

/-- The result of a pure step, with its fault as the operation's failure. -/
def lift {α : Type} : Except DataError α → StoreM α
  | .ok a => pure a
  | .error fault => throw (.ofData fault)

/-! ## Frames -/

/-- The frame at a key, if there is one. -/
def read (key : Bytes) : StoreM (Option Frame) := do
  match ← Engine.get key with
  | none => return none
  | some bytes => return some (← lift (Frame.decode bytes))

/-- The frame at a key that has to hold something. -/
def readExisting (key : Bytes) : StoreM Frame := do
  match ← read key with
  | none => throw .notFound
  | some frame => return frame

/-- The frame at a key that has to hold a value of the given kind. -/
def readAs (key : Bytes) (kind : Kind) : StoreM Frame := do
  match ← Engine.get key with
  | none => throw .notFound
  | some bytes => lift (Frame.decodeAs kind bytes)

/-- Writes a value and its expiry at a key. -/
def write (key : Bytes) (value : Value) (expireAt : Option Instant) : StoreM Unit := do
  Engine.set key (← lift (Frame.encode ⟨value, expireAt⟩))

/-- The failure of an operation that met a value of another kind. -/
def mismatch (expected : Kind) (value : Value) : StoreError :=
  .typeMismatch expected value.kind

/-- Refuses keys in the namespace of the expiry buckets. -/
def requireUnreserved (key : String) : StoreM Unit :=
  if Key.isReserved key then throw (.reservedKey key) else pure ()

/-! ## Metadata of structures -/

/-- Writes the metadata of a new structure at a key that holds nothing. -/
def create (key : String) (metadata : Value) : StoreM Unit := do
  requireUnreserved key
  if (← Engine.get (Key.ofText key)).isSome then throw .alreadyExists
  write (Key.ofText key) metadata none

/-- Structures whose metadata is just the number of their items. -/
inductive Counted where
  | map
  | set
  | series
deriving DecidableEq, Repr

namespace Counted

/-- The kind of the structure's metadata. -/
def kind : Counted → Kind
  | .map => .map
  | .set => .set
  | .series => .series

/-- The marker of the structure's items. -/
def marker : Counted → Key.Marker
  | .map => .map
  | .set => .set
  | .series => .series

/-- The structure's metadata with the given number of items. -/
def metadata : Counted → UInt64 → Value
  | .map => .map
  | .set => .set
  | .series => .series

end Counted

/-- The number of items of a structure, and its expiry. -/
def readCount (key : String) (structure_ : Counted) :
    StoreM (UInt64 × Option Instant) := do
  let frame ← readAs (Key.ofText key) structure_.kind
  match frame.value with
  | .map count | .set count | .series count => return (count, frame.expireAt)
  | other => throw (mismatch structure_.kind other)

/-- Writes the number of items of a structure. -/
def writeCount (key : String) (structure_ : Counted) (count : UInt64)
    (expireAt : Option Instant) : StoreM Unit :=
  write (Key.ofText key) (structure_.metadata count) expireAt

/-- One more, if it fits. -/
def increment (count : UInt64) : StoreM UInt64 :=
  if count.toNat < 18446744073709551615 then pure (count + 1) else throw .overflow

/-- One less, but not below zero. -/
def decrement (count : UInt64) : UInt64 :=
  if count = 0 then 0 else count - 1

/-! ## Items of structures -/

/-- Removes the given keys one after the other. -/
def removeKeys : List Bytes → StoreM Unit
  | [] => pure ()
  | key :: keys => do
      Engine.delete key
      removeKeys keys

/-- Removes every item under the structure's stem. -/
def removeItems (key : String) (marker : Key.Marker) : StoreM Unit := do
  let rows ← Engine.scan (Key.itemStem key marker)
  removeKeys (rows.map (·.1))

/-- The number of items under the structure's stem. -/
def countItems (key : String) (marker : Key.Marker) : StoreM Nat :=
  Engine.visitUnder (Key.itemStem key marker) (fun count _ => (count + 1, .proceed)) 0

/-- Does something for each of `count` indices from `index` on. -/
def forIndices (act : Int64 → StoreM Unit) : Int64 → Nat → StoreM Unit
  | _, 0 => pure ()
  | index, count + 1 => do
      act index
      forIndices act (index + 1) count

/-- How many indices lie from `first` to `last`. -/
def spanLength (first last : Int64) : Nat :=
  (last.toInt - first.toInt + 1).toNat

/-- Removes the items of a list at `count` indices from `index` on. -/
def removeIndices (key : String) : Int64 → Nat → StoreM Unit :=
  forIndices fun index => Engine.delete (Key.listItem key index)

/-- Removes what a value read from a key describes: every item first, then the
value itself. -/
def purge (key : String) (value : Value) : StoreM Unit := do
  match value with
  | .list handle =>
      if handle.length ≠ 0 then
        removeIndices key handle.head (spanLength handle.head handle.tail)
  | .map _ => removeItems key .map
  | .set _ => removeItems key .set
  | .series _ => removeItems key .series
  | .bloom _ => removeItems key .bloom
  | _ => pure ()
  Engine.delete (Key.ofText key)

/-- Removes a structure of the given kind with all its items. -/
def deleteAs (key : String) (kind : Kind) : StoreM Unit := do
  let frame ← readAs (Key.ofText key) kind
  purge key frame.value

end StructuredStore.Store
