import StructuredStore.Store.Deque
import StructuredStore.Store.Scalar

/-!
# Expiry

An expiry lies in the frame of its key, and the key's name is also appended to
a bucket list: one list for each slice of time.  A sweep drains the buckets
that are due and deletes each candidate whose own expiry has passed.  Entries
that an expiry no longer matches are dropped; candidates that are not due yet
go back into their bucket.
-/

namespace StructuredStore

/-! ## Slices of time -/

/-- The most seconds that a length of time may have. -/
def BucketWidth.maxSeconds : Int := 9223372036854775

/-- The width of the slices of time, in seconds. -/
structure BucketWidth where
  seconds : Int
  pos : 0 < seconds
  le_max : seconds ≤ BucketWidth.maxSeconds
deriving DecidableEq

namespace BucketWidth

/-- The width for a number of seconds, which is taken as a signed 64-bit
number.  What is not positive counts as one second; what no length of time can
hold has no width. -/
def ofSeconds? (precision : UInt64) : Option BucketWidth :=
  let seconds := precision.toInt64.toInt
  if h : maxSeconds < seconds.natAbs then none
  else some ⟨max seconds 1, by omega, by unfold maxSeconds at *; omega⟩

/-- The start of the slice that holds an instant. -/
def floor (width : BucketWidth) (instant : Instant) : Int :=
  instant.seconds / width.seconds * width.seconds

/-- The first start of a slice at or after an instant. -/
def ceil (width : BucketWidth) (instant : Instant) : Int :=
  if width.floor instant = instant.seconds ∧ instant.nanos = 0 then width.floor instant
  else width.floor instant + width.seconds

/-- The key of the bucket in which an expiry at an instant is listed. -/
def bucket (width : BucketWidth) (instant : Instant) : String :=
  Key.bucket (Int64.ofInt (width.ceil instant))

end BucketWidth

namespace Expiry

/-! ## Setting and clearing -/

/-- Writes an expiry into the frame of a key. -/
def stamp (key : String) (instant : Instant) : StoreM Unit := do
  let frame ← Store.readExisting (Key.ofText key)
  Store.write (Key.ofText key) frame.value (some instant)

/-- Lists a key in a bucket. -/
def enlist (bucket key : String) : StoreM Unit := do
  let _ ← Deque.pushRightCreating bucket (.text key)

/-- Makes a key expire at an instant.  Answers whether the instant lies in the
future; if not, nothing changes. -/
def setAt (width : BucketWidth) (now : Instant) (key : String) (instant : Instant) :
    StoreM Bool := do
  if instant ≤ now then return false
  stamp key instant
  enlist (width.bucket instant) key
  return true

/-- Makes a key expire after a length of time. -/
def setIn (width : BucketWidth) (now : Instant) (key : String) (span : Span) :
    StoreM Bool := do
  match now.add? span with
  | none => throw .overflow
  | some instant => setAt width now key instant

/-- Clears the expiry of a key; its entry in a bucket stays. -/
def clear (key : String) : StoreM Unit := do
  let frame ← Store.readExisting (Key.ofText key)
  if frame.expireAt.isSome then Store.write (Key.ofText key) frame.value none

/-- The instant at which a key expires, if any. -/
def get (key : String) : StoreM (Option Instant) := do
  return (← Store.readExisting (Key.ofText key)).expireAt

/-! ## Sweeping -/

/-- What a sweep did. -/
structure SweepReport where
  /-- Buckets drained. -/
  buckets : Nat
  /-- Keys deleted. -/
  deleted : Nat
  /-- Entries dropped. -/
  skipped : Nat
  /-- Entries put back. -/
  pending : Nat
deriving DecidableEq, Repr

namespace SweepReport

/-- The report of a sweep that did nothing. -/
def zero : SweepReport := ⟨0, 0, 0, 0⟩

/-- What two sweeps did together. -/
def add (a b : SweepReport) : SweepReport :=
  ⟨a.buckets + b.buckets, a.deleted + b.deleted, a.skipped + b.skipped,
    a.pending + b.pending⟩

end SweepReport

/-- What becomes of a candidate. -/
inductive Outcome where
  | deleted
  | stale
  | notDue
deriving DecidableEq, Repr

/-- A computation whose failure is only noted.  What breaks it off breaks off the
computation around it too. -/
def attempt {α : Type} (action : StoreM α) : StoreM (Except StoreError α) :=
  ExceptT.mk do
    match ← action.run with
    | .error (.aborted cause) => return .error (.aborted cause)
    | outcome => return .ok outcome

/-- Deletes a candidate of a bucket if its own expiry has passed. -/
def settle (width : BucketWidth) (now : Instant) (bucket name : String) :
    StoreM Outcome := do
  match ← Store.read (Key.ofText name) with
  | none => return .stale
  | some frame =>
      match frame.expireAt with
      | none => return .stale
      | some instant =>
          if instant ≤ now then
            Store.purge name frame.value
            return .deleted
          else if width.bucket instant = bucket then return .notDue
          else return .stale

/-- Settles one entry of a drained bucket.  What is no key is dropped; so is a
candidate whose settling fails. -/
def settleEntry (width : BucketWidth) (now : Instant) (bucket : String) (entry : Value) :
    StoreM SweepReport := do
  match entry with
  | .text name =>
      match ← attempt (settle width now bucket name) with
      | .ok .deleted => return ⟨0, 1, 0, 0⟩
      | .ok .stale => return ⟨0, 0, 1, 0⟩
      | .ok .notDue =>
          let _ ← attempt (enlist bucket name)
          return ⟨0, 0, 0, 1⟩
      | .error _ => return ⟨0, 0, 1, 0⟩
  | _ => return ⟨0, 0, 1, 0⟩

/-- Settles the entries of a drained bucket in order. -/
def settleEntries (width : BucketWidth) (now : Instant) (bucket : String) :
    List Value → StoreM SweepReport
  | [] => pure .zero
  | entry :: entries => do
      let first ← settleEntry width now bucket entry
      let rest ← settleEntries width now bucket entries
      return first.add rest

/-- Drains a bucket and settles its entries. -/
def sweepBucket (width : BucketWidth) (now : Instant) (bucket : String) :
    StoreM SweepReport := do
  let entries ← Deque.takeAll bucket
  let report ← settleEntries width now bucket entries
  return report.add ⟨1, 0, 0, 0⟩

/-- Collects, last first, the keys of buckets up to a number, and stops at the
first bucket beyond it. -/
def collectDue (limit : Nat) (buckets : List String) (row : Row) :
    List String × Table.Visit :=
  match Key.bucketOrdinal? row.1 with
  | none => (buckets, .proceed)
  | some ordinal =>
      if limit < ordinal then (buckets, .stop)
      else (((Utf8.decode? row.1).toList ++ buckets), .proceed)

/-- Sweeps buckets in order; one that fails is passed over. -/
def sweepBuckets (width : BucketWidth) (now : Instant) :
    List String → StoreM SweepReport
  | [] => pure .zero
  | bucket :: buckets => do
      let first ← attempt (sweepBucket width now bucket)
      let rest ← sweepBuckets width now buckets
      match first with
      | .ok report => return report.add rest
      | .error _ => return rest

/-- Deletes every key whose expiry has come: sweeps every bucket up to the one
in which the present instant would be listed. -/
def sweep (width : BucketWidth) (now : Instant) : StoreM SweepReport := do
  let limit := Key.bucketOrdinal (Int64.ofInt (width.ceil now))
  let due ←
    Engine.visitUnder (Utf8.encode Key.bucketStem) (collectDue limit) []
  sweepBuckets width now due.reverse

end Expiry
end StructuredStore
