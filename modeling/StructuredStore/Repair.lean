import StructuredStore.Store.Deque

/-!
# Repair

Metadata and items are written one after the other, so an interruption between
the two can leave a count off by one or a list with a hole.  Repair rebuilds
the metadata of a structure from the items under its stem, and closes the holes
of a list.
-/

namespace StructuredStore.Repair

/-- The number of items before and after a repair. -/
structure Report where
  kind : Kind
  before : Nat
  after : Nat
  /-- Whether anything was written. -/
  changed : Bool
deriving DecidableEq, Repr

/-! ## Counted structures -/

/-- Counts the items under a marker and writes the metadata if the count is
another one. -/
def recount (key : String) (marker : Key.Marker) (before : UInt64)
    (metadata : UInt64 → Value) (expireAt : Option Instant) : StoreM Report := do
  let after := UInt64.ofNat (← Store.countItems key marker)
  if before ≠ after then Store.write (Key.ofText key) (metadata after) expireAt
  return ⟨(metadata before).kind, before.toNat, after.toNat, before != after⟩

/-! ## Lists -/

/-- The indices of the given rows of a list. -/
def indices (key : String) (rows : List Row) : Except DataError (List Int64) :=
  rows.mapM fun row =>
    Key.ofIndexSelector (row.1.drop (Key.itemStem key .list).length)

/-- Moves the item at an index to another one, if it is there. -/
def moveItem (key : String) (source target : Int64) : StoreM Bool := do
  match ← Engine.get (Key.listItem key source) with
  | none => return false
  | some bytes =>
      Engine.set (Key.listItem key target) bytes
      Engine.delete (Key.listItem key source)
      return true

/-- Moves the items at the given indices to consecutive ones from `target` on,
and answers whether any had to move.  The indices ascend, so a target is never
above the index it is for. -/
def closeHoles (key : String) : Int64 → List Int64 → StoreM Bool
  | _, [] => pure false
  | target, index :: rest => do
      let moved ← if target = index then pure false else moveItem key index target
      let others ← closeHoles key (target + 1) rest
      return moved || others

/-- The metadata of a list whose items lie at consecutive indices.  The index behind
the last one is taken on the way, and breaks off if there is none. -/
def handleFrom (first : Int64) (count : Nat) : StoreM ListHandle := do
  let next ← Deque.sum first (Int64.ofNat count).toInt
  return ⟨first, ← Deque.difference next 1, Int64.ofNat count⟩

/-- Closes the holes of a list and makes its metadata agree with its items. -/
def repairList (key : String) (handle : ListHandle) (expireAt : Option Instant) :
    StoreM Report := do
  let rows ← Engine.scan (Key.itemStem key .list)
  let present ← Store.lift (indices key rows)
  let (next, moved) ←
    match present with
    | [] => pure (ListHandle.empty, false)
    | first :: _ => do
        let moved ← closeHoles key first present
        pure (← handleFrom first present.length, moved)
  if next ≠ handle then Store.write (Key.ofText key) (.list next) expireAt
  return ⟨.list, handle.length.toInt.toNat, next.length.toUInt64.toNat, moved || next != handle⟩

/-! ## Any value -/

/-- Rebuilds the metadata of the structure at a key.  Other values are always
consistent. -/
def repair (key : String) : StoreM Report := do
  let frame ← Store.readExisting (Key.ofText key)
  match frame.value with
  | .list handle => repairList key handle frame.expireAt
  | .map count => recount key .map count .map frame.expireAt
  | .set count => recount key .set count .set frame.expireAt
  | .series count => recount key .series count .series frame.expireAt
  | .bloom handle =>
      recount key .bloom handle.count (fun count => .bloom { handle with count })
        frame.expireAt
  | other => return ⟨other.kind, 0, 0, false⟩

end StructuredStore.Repair
