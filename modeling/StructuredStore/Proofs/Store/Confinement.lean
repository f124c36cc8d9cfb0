import StructuredStore.Proofs.Deque.Limits
import StructuredStore.Proofs.Key.Ownership
import StructuredStore.Proofs.Store.Tally
import StructuredStore.Store.Scalar

/-!
# Which keys the shared steps touch

The steps that operations are made of, the operations on single values and
those on lists change nothing but physical keys that their logical key owns,
whatever calls fail.

Main results:

- `confined_write`, `confined_purge`: writing a frame, and removing what a value
  describes.
- `confined_set`, `confined_update`: replacing and updating a value.
- `confined_push`, `confined_trim` and their like: the operations on lists.
-/

namespace StructuredStore

open Engine (Confined ReadOnly)

/-- Whether a physical key is that of a value or lies under the marker of the
value's items. -/
def Key.OfValue (key : String) (value : Value) (physical : Bytes) : Prop :=
  physical = Key.ofText key ∨
    ∃ marker, value.marker? = some marker ∧ Key.itemStem key marker <+: physical

/-- What belongs to the value at a key is owned by the key. -/
theorem Key.OfValue.owns {key : String} {value : Value} {physical : Bytes}
    (h : Key.OfValue key value physical) : Key.Owns key physical := by
  obtain rfl | ⟨marker, _, hstem⟩ := h
  · exact .self key
  · exact .under hstem

/-! ## Shared steps -/

namespace Store

variable {keys : Bytes → Prop} {α : Type}

/-- A result of the codec is passed on without the store. -/
theorem confined_lift (result : Except DataError α) : Confined keys (lift result) := by
  cases result with
  | error fault => exact .throw _
  | ok a => exact .pure a

/-- Reading a frame changes nothing. -/
theorem confined_read (key : Bytes) : Confined keys (read key) := by
  refine .bind (.get key) fun found => ?_
  cases found with
  | none => exact .pure _
  | some bytes => exact .bind (confined_lift _) fun _ => .pure _

/-- Nor does reading one that has to be there, -/
theorem confined_readExisting (key : Bytes) : Confined keys (readExisting key) := by
  refine .bind (confined_read key) fun found => ?_
  cases found with
  | none => exact .throw _
  | some frame => exact .pure frame

/-- or one that has to be of a kind. -/
theorem confined_readAs (key : Bytes) (kind : Kind) : Confined keys (readAs key kind) := by
  refine .bind (.get key) fun found => ?_
  cases found with
  | none => exact .throw _
  | some bytes => exact confined_lift _

/-- A frame is written at its key. -/
theorem confined_write {key : Bytes} (hkey : keys key) (value : Value)
    (expireAt : Option Instant) : Confined keys (write key value expireAt) :=
  .bind (confined_lift _) fun bytes => .set hkey bytes

/-- Whether a key is reserved is checked without the store. -/
theorem confined_requireUnreserved (key : String) : Confined keys (requireUnreserved key) :=
  .ite (.throw _) (.pure _)

/-- A structure is created by writing its metadata. -/
theorem confined_create (key : String) (metadata : Value) :
    Confined (Key.Owns key) (create key metadata) := by
  refine .bind (confined_requireUnreserved key) fun _ => ?_
  refine .bind (.get _) fun found => ?_
  exact .guard (confined_write (.self key) metadata none)

/-- A count is only read. -/
theorem confined_readCount (key : String) (counted : Counted) :
    Confined keys (readCount key counted) := by
  refine .bind (confined_readAs _ _) fun frame => ?_
  split
  all_goals first | exact .pure _ | exact .throw _

/-- A count is written into the metadata at the key itself. -/
theorem confined_writeCount (key : String) (counted : Counted) (count : UInt64)
    (expireAt : Option Instant) :
    Confined (Key.Owns key) (writeCount key counted count expireAt) :=
  confined_write (.self key) _ _

/-- A count goes up without the store. -/
theorem confined_increment (count : UInt64) : Confined keys (increment count) :=
  .ite (.pure _) (.throw _)

/-- Exactly the given keys are removed, at most. -/
theorem confined_removeKeys {removed : List Bytes} (h : ∀ key ∈ removed, keys key) :
    Confined keys (removeKeys removed) := by
  induction removed with
  | nil => exact .pure ()
  | cons key removed ih =>
      refine .bind (.delete (h key List.mem_cons_self)) fun _ => ?_
      exact ih fun other hother => h other (List.mem_cons_of_mem key hother)

/-- Removing items touches nothing but items. -/
theorem confined_removeItems {key : String} {marker : Key.Marker}
    (hkeys : ∀ physical, Key.itemStem key marker <+: physical → keys physical) :
    Confined keys (removeItems key marker) := by
  refine Confined.bind_scan fun rows hrows => confined_removeKeys fun other hother => ?_
  obtain ⟨row, hrow, rfl⟩ := List.mem_map.mp hother
  exact hkeys _ (hrows row hrow)

/-- Counting items changes nothing. -/
theorem confined_countItems (key : String) (marker : Key.Marker) :
    Confined keys (countItems key marker) :=
  .visitUnder _ _ _

/-- What an action at each of many indices is confined to, all of them are. -/
theorem confined_forIndices {act : Int64 → StoreM Unit} (h : ∀ index, Confined keys (act index))
    (first : Int64) (count : Nat) : Confined keys (forIndices act first count) := by
  induction count generalizing first with
  | zero => exact .pure ()
  | succ count ih => exact .bind (h first) fun _ => ih (first + 1)

/-- Items are removed at their indices. -/
theorem confined_removeIndices {key : String} (hkeys : ∀ index, keys (Key.listItem key index))
    (first : Int64) (count : Nat) : Confined keys (removeIndices key first count) :=
  confined_forIndices (fun index => .delete (hkeys index)) first count

/-- What a value describes lies at the value's key and under the marker of its
kind. -/
theorem confined_purge_value (key : String) (value : Value) :
    Confined (Key.OfValue key value) (purge key value) := by
  have hself : Confined (Key.OfValue key value) (Engine.delete (Key.ofText key)) :=
    .delete (Or.inl rfl)
  have hitems : ∀ marker, value.marker? = some marker →
      Confined (Key.OfValue key value) (removeItems key marker) :=
    fun marker hmarker => confined_removeItems fun _ hstem => Or.inr ⟨marker, hmarker, hstem⟩
  cases value with
  | list handle =>
      refine .ite ?_ hself
      refine .bind (confined_removeIndices (fun index => ?_) _ _) fun _ => hself
      exact Or.inr ⟨.list, rfl, List.prefix_append _ _⟩
  | map count => exact .bind (hitems .map rfl) fun _ => hself
  | set count => exact .bind (hitems .set rfl) fun _ => hself
  | series count => exact .bind (hitems .series rfl) fun _ => hself
  | bloom handle => exact .bind (hitems .bloom rfl) fun _ => hself
  | _ => exact hself

/-- A value is removed with what its key owns. -/
theorem confined_purge (key : String) (value : Value) :
    Confined (Key.Owns key) (purge key value) :=
  (confined_purge_value key value).mono fun _ => Key.OfValue.owns

/-- So is one that has to be of a kind. -/
theorem confined_deleteAs (key : String) (kind : Kind) :
    Confined (Key.Owns key) (deleteAs key kind) :=
  .bind (confined_readAs _ kind) fun frame => confined_purge key frame.value

/-! ## Values at keys -/

/-- Asking whether a key is there changes nothing. -/
theorem confined_contains (key : String) : Confined keys (contains key) :=
  .bind (.get _) fun _ => .pure _

/-- Asking for the kind of a value changes nothing. -/
theorem confined_kindOf (key : String) : Confined keys (kindOf key) := by
  refine .bind (.get _) fun found => ?_
  cases found with
  | none => exact .throw _
  | some bytes => exact confined_lift _

/-- Reading a value changes nothing, -/
theorem confined_get (key : String) : Confined keys (get key) :=
  .bind (confined_readExisting _) fun _ => .pure _

/-- nor does reading one of a kind. -/
theorem confined_getAs (key : String) (kind : Kind) : Confined keys (getAs key kind) :=
  .bind (confined_readAs _ kind) fun _ => .pure _

/-- A value is written at the key itself. -/
theorem confined_set (key : String) (value : Value) :
    Confined (Key.Owns key) (set key value) := by
  have hwrite : Confined (Key.Owns key) (write (Key.ofText key) value none) :=
    confined_write (.self key) value none
  refine .guard ?_
  refine .bind (confined_requireUnreserved key) fun _ => ?_
  refine .bind (.get _) fun found => ?_
  cases found with
  | none => exact hwrite
  | some bytes => exact .bind (confined_lift _) fun _ => .guard hwrite

/-- Deleting a key removes only what it owns. -/
theorem confined_delete (key : String) : Confined (Key.Owns key) (delete key) :=
  .bind (confined_readExisting _) fun frame => confined_purge key frame.value

/-- An update writes the new value where the old one was. -/
theorem confined_update (key : String) (next : Option Value → Except StoreError (Value × α)) :
    Confined (Key.Owns key) (update key next) := by
  refine .bind (confined_read _) fun frame => ?_
  split
  · exact .throw _
  · exact .bind (confined_write (.self key) _ _) fun _ => .pure _

end Store

/-! ## Lists -/

namespace Deque

variable {keys : Bytes → Prop}

/-- The metadata of a list is only read. -/
theorem confined_readHandle (key : String) : Confined keys (readHandle key) := by
  refine .bind (Store.confined_readAs _ _) fun frame => ?_
  split
  · exact .pure _
  · exact .throw _

/-- The metadata of a list lies at the key itself. -/
theorem confined_writeHandle (key : String) (handle : ListHandle) (expireAt : Option Instant) :
    Confined (Key.Owns key) (writeHandle key handle expireAt) :=
  Store.confined_write (.self key) _ _

/-- Reading an item changes nothing. -/
theorem confined_readItem (key : String) (index : Int64) : Confined keys (readItem key index) :=
  .bind (Store.confined_read _) fun _ => .pure _

/-- An item is written at its index. -/
theorem confined_writeItem (key : String) (index : Int64) (value : Value) :
    Confined (Key.Owns key) (writeItem key index value) :=
  Store.confined_write (.listItem key index) _ _

/-- Reading an item that the metadata promises changes nothing. -/
theorem confined_requireItem (key : String) (index : Int64) :
    Confined keys (requireItem key index) := by
  refine .bind (confined_readItem key index) fun found => ?_
  cases found with
  | none => exact .throw _
  | some value => exact .pure value

/-- The metadata with one item more is computed without the store. -/
theorem confined_grow (handle : ListHandle) (side : End) : Confined keys (grow handle side) := by
  refine .guard ?_
  cases side with
  | left => exact .guard (.pure _)
  | right => exact .guard (.pure _)

/-- A push writes an item and the metadata. -/
theorem confined_push (key : String) (value : Value) (side : End) :
    Confined (Key.Owns key) (push key value side) := by
  refine .bind (confined_readHandle key) fun found => ?_
  refine .bind (confined_grow _ side) fun grown => ?_
  refine .bind (confined_writeItem key _ value) fun _ => ?_
  exact .bind (confined_writeHandle key _ _) fun _ => .pure _

/-- So does one that creates the list. -/
theorem confined_pushRightCreating (key : String) (value : Value) :
    Confined (Key.Owns key) (pushRightCreating key value) := by
  have hpush := confined_push key value .right
  refine .bind (Store.confined_read _) fun found => ?_
  exact .ite (.bind (confined_writeHandle key _ _) fun _ => hpush) hpush

/-- Arithmetic changes nothing, whether it breaks off or not. -/
theorem confined_inRange (cause : Abort) (i : Int) : Confined keys (inRange cause i) :=
  .ite (.pure _) (.throw _)

/-- Setting up a buffer changes nothing, whether it breaks off or not. -/
theorem confined_reserve (key : String) (count : Nat) : Confined keys (reserve key count) := by
  constructor
  · intro engine
    rw [run_reserve]
    exact .refl keys engine.table
  · intro engine hquiet
    rw [run_reserve]
    exact hquiet

/-- The metadata with one item less is computed without the store. -/
theorem confined_shrink (handle : ListHandle) (side : End) :
    Confined keys (shrink handle side) := by
  refine .ite (.pure _) ?_
  cases side with
  | left => exact .bind (confined_inRange _ _) fun _ => .pure _
  | right => exact .bind (confined_inRange _ _) fun _ => .pure _

/-- A pop removes an item and writes the metadata. -/
theorem confined_pop (key : String) (side : End) : Confined (Key.Owns key) (pop key side) := by
  refine .bind (confined_readHandle key) fun found => .guard ?_
  refine .bind (confined_requireItem key _) fun value => ?_
  refine .bind (.delete (.listItem key _)) fun _ => ?_
  refine .bind (confined_shrink _ side) fun shrunk => ?_
  exact .bind (confined_writeHandle key _ _) fun _ => .pure _

/-- A position is turned into an index without the store. -/
theorem confined_locate (handle : ListHandle) (position : Int64) :
    Confined keys (locate handle position) :=
  .ite (.throw _) (confined_inRange _ _)

/-- Reading the item at a position changes nothing. -/
theorem confined_get (key : String) (position : Int64) : Confined keys (get key position) := by
  refine .bind (confined_readHandle key) fun found => ?_
  exact .bind (confined_locate _ position) fun index => confined_requireItem key index

/-- The item at a position is written at its index. -/
theorem confined_set (key : String) (position : Int64) (value : Value) :
    Confined (Key.Owns key) (set key position value) := by
  refine .bind (confined_readHandle key) fun found => ?_
  exact .bind (confined_locate _ position) fun index => confined_writeItem key index value

/-- Reading items changes nothing. -/
theorem confined_readItems (key : String) (head : Int64) (offset : Int) (count : Nat) :
    Confined keys (readItems key head offset count) := by
  induction count generalizing offset with
  | zero => exact .pure _
  | succ count ih =>
      refine .bind (confined_inRange _ _) fun index => ?_
      refine .bind (confined_readItem key index) fun item => ?_
      exact .bind (ih (offset + 1)) fun _ => .pure _

/-- Reading a part of a list changes nothing. -/
theorem confined_range (key : String) (start stop : Int64) :
    Confined keys (range key start stop) := by
  refine .bind (confined_readHandle key) fun ⟨handle, expireAt⟩ => ?_
  dsimp only
  split
  · exact .pure _
  · exact .bind (confined_reserve key _) fun _ => confined_readItems key _ _ _

/-- Trimming removes items and writes the metadata. -/
theorem confined_trim (key : String) (start stop : Int64) :
    Confined (Key.Owns key) (trim key start stop) := by
  refine .bind (confined_readHandle key) fun ⟨handle, expireAt⟩ => .ite (.pure _) ?_
  split
  · exact .bind (Store.confined_removeIndices (.listItem key) _ _) fun _ => confined_writeHandle key _ _
  · refine .bind (confined_inRange _ _) fun head => .bind (confined_inRange _ _) fun tail => ?_
    refine .bind (Store.confined_removeIndices (.listItem key) _ _) fun _ => ?_
    refine .bind (confined_inRange _ _) fun next => ?_
    exact .bind (Store.confined_removeIndices (.listItem key) _ _) fun _ => confined_writeHandle key _ _

/-- Draining a list removes items at its indices. -/
theorem confined_drain (key : String) (first : Int64) (count : Nat) :
    Confined (Key.OfList key) (drain key first count) := by
  induction count generalizing first with
  | zero => exact .pure _
  | succ count ih =>
      refine .bind (confined_readItem key first) fun item => ?_
      refine .bind (.delete (Or.inr ⟨first, rfl⟩)) fun _ => ?_
      exact .bind (ih (first + 1)) fun _ => .pure _

/-- What is taken out of a list is the list and its items. -/
theorem confined_takeAll_list (key : String) : Confined (Key.OfList key) (takeAll key) := by
  have hself : Confined (Key.OfList key) (Engine.delete (Key.ofText key)) :=
    .delete (Or.inl rfl)
  refine .bind (.get _) fun found => ?_
  cases found with
  | none => exact .pure _
  | some bytes =>
      refine .bind (Store.confined_lift _) fun frame => ?_
      split
      · refine .bind (confined_reserve key _) fun _ => .ite ?_ ?_
        · exact .bind (.pure _) fun _ => .bind hself fun _ => .pure _
        · exact .bind (confined_drain key _ _) fun _ => .bind hself fun _ => .pure _
      · exact .throw _

/-- Taking a list changes what its key owns. -/
theorem confined_takeAll (key : String) : Confined (Key.Owns key) (takeAll key) :=
  (confined_takeAll_list key).mono fun _ => Key.OfList.owns

/-- The length is read from the metadata. -/
theorem confined_length (key : String) : Confined keys (length key) :=
  .bind (confined_readHandle key) fun _ => .pure _

end Deque

end StructuredStore
