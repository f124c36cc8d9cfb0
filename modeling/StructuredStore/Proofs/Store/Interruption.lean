import StructuredStore.Proofs.Engine.Interruption
import StructuredStore.Proofs.Store.Steps
import StructuredStore.Store.Deque
import StructuredStore.Store.Membership

/-!
# Steps that are broken off

The steps that the operations on structures are made of, as steps of a run in
which a call may fail: reads have no stage but their table, and a write has two.

Main results:

- `steady_readCount`, `Deque.steady_readHandle` and their like: steps that write
  nothing.
- `runs_write`: a written frame, or a table left as it was.
-/

namespace StructuredStore

open Engine

/-! ## Shared steps -/

namespace Store

variable {α : Type} {stage : Table → Prop} {table : Table} {key : Bytes}

/-- A result of the codec makes no call. -/
theorem steady_lift (result : Except DataError α) : Steady (lift result) := by
  cases result with
  | error fault => exact .throw _
  | ok a => exact .pure a

/-- Reading a frame cannot be stopped behind a change. -/
theorem steady_read (key : Bytes) : Steady (read key) := by
  apply Steady.bind (.get key)
  intro found
  cases found with
  | none => exact .pure _
  | some bytes => exact .bind (steady_lift _) fun _ => .pure _

/-- Nor can reading one that has to be there, -/
theorem steady_readExisting (key : Bytes) : Steady (readExisting key) := by
  apply Steady.bind (steady_read key)
  intro found
  cases found with
  | none => exact .throw _
  | some frame => exact .pure frame

/-- or one that has to be of a kind. -/
theorem steady_readAs (key : Bytes) (kind : Kind) : Steady (readAs key kind) := by
  apply Steady.bind (.get key)
  intro found
  cases found with
  | none => exact .throw _
  | some bytes => exact steady_lift _

/-- A count is read without changes. -/
theorem steady_readCount (key : String) (counted : Counted) :
    Steady (readCount key counted) := by
  apply Steady.bind (steady_readAs _ _)
  intro frame
  split
  all_goals first | exact .pure _ | exact .throw _

/-- A count goes up without a call. -/
theorem steady_increment (count : UInt64) : Steady (increment count) :=
  .ite (.pure _) (.throw _)

/-- A frame that can be written is, or the table is left as it was. -/
theorem runs_write {value : Value} {expireAt : Option Instant} {bytes : Bytes}
    (h : Frame.encode ⟨value, expireAt⟩ = .ok bytes) (hbefore : stage table)
    (hafter : stage (table.insert key bytes)) :
    Runs stage table (write key value expireAt) (.ok ()) (table.insert key bytes) := by
  rw [write, h]
  exact .bind (.pure bytes) (.set hbefore hafter)

/-- A frame that cannot be encoded is not written, and no call is made for it. -/
theorem runs_write_error {value : Value} {expireAt : Option Instant} {fault : DataError}
    (h : Frame.encode ⟨value, expireAt⟩ = .error fault) :
    Runs stage table (write key value expireAt) (.error (.ofData fault)) table := by
  rw [write, h]
  exact .bind_error (.throw _)

/-- The write of a frame stops at its call only. -/
theorem stops_write {place : Call → Table → Prop} {value : Value} {expireAt : Option Instant}
    {bytes : Bytes} (h : Frame.encode ⟨value, expireAt⟩ = .ok bytes) (hplace : place .set table) :
    Stops place table (write key value expireAt) (.ok ()) (table.insert key bytes) := by
  rw [write, h]
  exact .bind (.pure bytes) (.set hplace key bytes)

/-- So nothing can stop at it. -/
theorem stops_write_error {place : Call → Table → Prop} {value : Value}
    {expireAt : Option Instant} {fault : DataError}
    (h : Frame.encode ⟨value, expireAt⟩ = .error fault) :
    Stops place table (write key value expireAt) (.error (.ofData fault)) table := by
  rw [write, h]
  exact .bind_error (.throw _)

end Store

/-! ## Lists -/

namespace Deque

/-- The metadata of a list is read without changes. -/
theorem steady_readHandle (key : String) : Steady (readHandle key) := by
  apply Steady.bind (Store.steady_readAs _ _)
  intro frame
  split
  · exact .pure _
  · exact .throw _

/-- So is an item that the metadata promises. -/
theorem steady_requireItem (key : String) (index : Int64) : Steady (requireItem key index) := by
  apply Steady.bind (.bind (Store.steady_read _) fun _ => .pure _)
  intro found
  cases found with
  | none => exact .throw _
  | some value => exact .pure value

/-- The metadata with one item more is computed without a call. -/
theorem steady_grow (handle : ListHandle) (side : End) : Steady (grow handle side) := by
  apply Steady.guard
  cases side with
  | left => exact .guard (.pure _)
  | right => exact .guard (.pure _)

/-- Arithmetic makes no call. -/
theorem steady_inRange (cause : Abort) (i : Int) : Steady (inRange cause i) :=
  .ite (.pure _) (.throw _)

/-- A position is turned into an index without a call. -/
theorem steady_locate (handle : ListHandle) (position : Int64) :
    Steady (locate handle position) :=
  .ite (.throw _) (steady_inRange _ _)

end Deque

/-! ## Series and filters -/

/-- The metadata of a filter is read without changes. -/
theorem Membership.steady_readHandle (key : String) : Steady (readHandle key) := by
  apply Steady.bind (Store.steady_readAs _ _)
  intro frame
  split
  · exact .pure _
  · exact .throw _

end StructuredStore
