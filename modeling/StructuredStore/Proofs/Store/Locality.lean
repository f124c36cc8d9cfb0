import StructuredStore.Proofs.Engine.Locality
import StructuredStore.Proofs.Store.Footprint

/-!
# Which keys the reads look at

Every operation that only looks is settled by the physical keys that its
logical key owns: frames are read at owned keys, and scans stay under the
stems of the key's items.

Main results:

- `Operation.local_perform`: an operation on a key that only looks is local to
  what the key owns.
-/

namespace StructuredStore

open Engine (Local Mirrors)

/-! ## Shared steps -/

namespace Store

variable {keys : Bytes → Prop} {key : Bytes} {α : Type}

/-- A result of the codec depends on no row. -/
theorem local_lift (result : Except DataError α) : Local keys (lift result) := by
  cases result with
  | error fault => exact .throw _
  | ok a => exact .pure a

/-- Reading a frame looks at its row only. -/
theorem local_read (h : keys key) : Local keys (read key) := by
  apply Local.bind (.get h)
  intro found
  cases found with
  | none => exact .pure _
  | some bytes => exact .bind (local_lift _) fun _ => .pure _

/-- What is written depends on no row. -/
theorem mirrors_write (physical : Bytes) (value : Value) (expireAt : Option Instant) :
    Mirrors keys (write physical value expireAt) :=
  .bind_local (local_lift _) fun _ => .set _ _

/-- So does reading one that has to be there, -/
theorem local_readExisting (h : keys key) : Local keys (readExisting key) := by
  apply Local.bind (local_read h)
  intro found
  cases found with
  | none => exact .throw _
  | some frame => exact .pure frame

/-- and one that has to be of a kind. -/
theorem local_readAs (h : keys key) (kind : Kind) : Local keys (readAs key kind) := by
  apply Local.bind (.get h)
  intro found
  cases found with
  | none => exact .throw _
  | some bytes => exact local_lift _

/-- A value of a kind is read from the row of its key. -/
theorem local_getAs (key : String) (kind : Kind) : Local (Key.Owns key) (getAs key kind) :=
  .bind (local_readAs (.self key) kind) fun _ => .pure _

/-- A count is read from the row of the metadata. -/
theorem local_readCount {key : String} (h : keys (Key.ofText key)) (counted : Counted) :
    Local keys (readCount key counted) := by
  apply Local.bind (local_readAs h _)
  intro frame
  split
  all_goals first | exact .pure _ | exact .throw _

/-- The kind of a value is read from the row of its key. -/
theorem local_kindOf (key : String) : Local (Key.Owns key) (kindOf key) := by
  apply Local.bind (.get (.self key))
  intro found
  cases found with
  | none => exact .throw _
  | some bytes => exact local_lift _

end Store

/-! ## Lists -/

namespace Deque

/-- The metadata of a list is read from the row of its key. -/
theorem local_readHandle {keys : Bytes → Prop} {key : String} (h : keys (Key.ofText key)) :
    Local keys (readHandle key) := by
  apply Local.bind (Store.local_readAs h _)
  intro frame
  split
  · exact .pure _
  · exact .throw _

/-- The place of a new item is settled by the metadata alone. -/
theorem local_grow {keys : Bytes → Prop} (handle : ListHandle) (side : End) :
    Local keys (grow handle side) := by
  cases side with
  | left => exact .ite (.throw _) (.ite (.throw _) (.pure _))
  | right => exact .ite (.throw _) (.ite (.throw _) (.pure _))

/-- A push does the same to stores that agree on what the key owns. -/
theorem mirrors_push (key : String) (value : Value) (side : End) :
    Mirrors (Key.Owns key) (push key value side) := by
  apply Mirrors.bind_local (local_readHandle (.self key))
  intro ⟨handle, expireAt⟩
  apply Mirrors.bind_local (local_grow handle side)
  intro ⟨grown, index⟩
  exact .bind (Store.mirrors_write _ _ _) fun _ => .bind (Store.mirrors_write _ _ _) fun _ =>
    .pure _

/-- A list of its own key is created and grown alike. -/
theorem mirrors_pushRightCreating (key : String) (value : Value) :
    Mirrors (Key.Owns key) (pushRightCreating key value) := by
  apply Mirrors.bind_local (Store.local_read (.self key))
  intro found
  have hpush : Mirrors (Key.Owns key) (push key value .right) := mirrors_push key value .right
  exact .ite (.bind (Store.mirrors_write _ _ _) fun _ => hpush) hpush

/-- An item is read from its own row. -/
theorem local_readItem (key : String) (index : Int64) :
    Local (Key.Owns key) (readItem key index) :=
  .bind (Store.local_read (.listItem key index)) fun _ => .pure _

/-- Arithmetic depends on no row. -/
theorem local_inRange {keys : Bytes → Prop} (cause : Abort) (i : Int) :
    Local keys (inRange cause i) :=
  .ite (.pure _) (.throw _)

/-- Whether a buffer can be had is settled by the rows of the items. -/
theorem local_reserve (key : String) (count : Nat) :
    Local (Key.Owns key) (reserve key count) := by
  intro a b hagree
  have hsame : a.countUnder (Key.itemStem key .list) = b.countUnder (Key.itemStem key .list) :=
    Table.countUnder_congr fun physical hstem => hagree physical (.under hstem)
  refine ⟨_, run_reserve key count (Engine.ofTable a), ?_⟩
  rw [run_reserve]
  exact congrArg (fun rows => ((if maxItems < count ∧ rows < count then
    .error (.aborted .buffer) else .ok () : Except StoreError Unit), Engine.ofTable b)) hsame.symm

/-- The item at a position is read from the rows of the list. -/
theorem local_get (key : String) (position : Int64) :
    Local (Key.Owns key) (get key position) := by
  apply Local.bind (local_readHandle (.self key))
  intro ⟨handle, expireAt⟩
  apply Local.bind (.ite (.throw _) (local_inRange _ _))
  intro index
  apply Local.bind (local_readItem key index)
  intro found
  cases found with
  | none => exact .throw _
  | some value => exact .pure value

/-- So are items one behind the other, -/
theorem local_readItems (key : String) (head : Int64) (offset : Int) (count : Nat) :
    Local (Key.Owns key) (readItems key head offset count) := by
  induction count generalizing offset with
  | zero => exact .pure _
  | succ count ih =>
      apply Local.bind (local_inRange _ _)
      intro index
      apply Local.bind (local_readItem key index)
      intro item
      exact .bind (ih (offset + 1)) fun _ => .pure _

/-- and the items between two positions. -/
theorem local_range (key : String) (start stop : Int64) :
    Local (Key.Owns key) (range key start stop) := by
  apply Local.bind (local_readHandle (.self key))
  intro ⟨handle, expireAt⟩
  dsimp only
  split
  · exact .pure _
  · exact .bind (local_reserve key _) fun _ => local_readItems key _ _ _

end Deque

/-! ## Maps, sets and series -/

/-- The entries of a map are read from what its key owns. -/
theorem FieldMap.local_entries (key : String) : Local (Key.Owns key) (entries key) := by
  apply Local.bind (Store.local_readCount (.self key) _)
  intro _
  exact .bind (.scan fun _ => .under) fun rows => Store.local_lift _

/-- So are the members of a set. -/
theorem MemberSet.local_members (key : String) : Local (Key.Owns key) (members key) := by
  apply Local.bind (Store.local_readCount (.self key) _)
  intro _
  exact .bind (.scan fun _ => .under) fun rows => Store.local_lift _

namespace Series

/-- A point is read from what the key owns. -/
theorem local_get (key : String) (instant : Instant) : Local (Key.Owns key) (get key instant) := by
  apply Local.bind (Store.local_readCount (.self key) _)
  intro _
  cases hpoint : Key.instantSelector instant with
  | error fault =>
      rw [pointKey_error key hpoint]
      exact .throw _
  | ok selector =>
      rw [pointKey_ok key hpoint, pure_bind]
      exact .bind (Store.local_readExisting (.item key _ _)) fun _ => .pure _

/-- So are the points between two instants, -/
theorem local_range (key : String) (start stop : Instant) :
    Local (Key.Owns key) (range key start stop) := by
  apply Local.bind (Store.local_readCount (.self key) _)
  intro _
  apply Local.ite (.pure _)
  apply Local.bind (Store.local_lift _)
  intro lower
  apply Local.bind (Store.local_lift _)
  intro upper
  exact .bind (.visitUnder (fun _ => .under) _ _) fun rows => Store.local_lift _

/-- and the latest one. -/
theorem local_latest (key : String) : Local (Key.Owns key) (latest key) := by
  apply Local.bind (Store.local_readCount (.self key) _)
  intro _
  apply Local.bind (.visitUnder (fun _ => .under) _ _)
  intro last
  cases last with
  | none => exact .pure _
  | some row => exact .bind (Store.local_lift _) fun _ => .pure _

end Series

/-! ## Filters, bitmaps and secrets -/

namespace Membership

/-- The metadata of a filter is read from the row of its key. -/
theorem local_readHandle {keys : Bytes → Prop} {key : String} (h : keys (Key.ofText key)) :
    Local keys (readHandle key) := by
  apply Local.bind (Store.local_readAs h _)
  intro frame
  split
  · exact .pure _
  · exact .throw _

/-- Whether an item was added is read from what the key owns. -/
theorem local_contains (key item : String) : Local (Key.Owns key) (contains key item) := by
  apply Local.bind (local_readHandle (.self key))
  intro ⟨handle, expireAt⟩
  apply Local.bind (Store.local_read (.item key _ _))
  intro found
  cases found with
  | none => exact .pure _
  | some frame => exact .pure _

end Membership

/-- The bits of a key are read from what it owns. -/
theorem Bitmap.local_read (key : String) : Local (Key.Owns key) (read key) := by
  apply Local.bind (Store.local_getAs key _)
  intro value
  split
  · exact .pure _
  · exact .throw _

namespace Secret

variable {keys : Bytes → Prop}

/-- A provider is found without the store. -/
theorem local_find {α : Type} (name : String) (entries : List (String × α)) :
    Local keys (Providers.find name entries) := by
  unfold Providers.find
  split
  · exact .pure _
  · exact .throw _

/-- What a provider answers depends on no row. -/
theorem local_guarded {α : Type} (failure : String → StoreError) (result : Except String α) :
    Local keys (guarded failure result) := by
  cases result with
  | error reason => exact .throw _
  | ok a => exact .pure a

/-- A decrypted value depends on the row of its key and on the provider. -/
theorem local_getDecrypted (providers : Providers) (key : String) (secret : Bytes) :
    Local (Key.Owns key) (getDecrypted providers key secret) := by
  apply Local.bind (Store.local_getAs key _)
  intro value
  split
  · apply Local.bind (local_find _ _)
    intro cipher
    apply Local.bind (local_guarded _ _)
    intro plaintext
    split
    · exact .pure _
    · exact .throw _
  · exact .throw _

/-- So does the verification of a password. -/
theorem local_verifyPassword (providers : Providers) (key password : String) :
    Local (Key.Owns key) (verifyPassword providers key password) := by
  apply Local.bind (Store.local_getAs key _)
  intro value
  split
  · exact .bind (local_find _ _) fun hasher => local_guarded _ _
  · exact .throw _

end Secret

/-! ## Operations -/

/-- An operation on a key that only looks is settled by what the key owns. -/
theorem Operation.local_perform (env : Environment) {op : Operation} {key : String}
    (hkey : op.key? = some key) (hreads : op.reads = true) :
    Local (Key.Owns key) (op.perform env) := by
  have hcount : ∀ counted, Local (Key.Owns key) (Store.readCount key counted) :=
    fun counted => Store.local_readCount (.self key) counted
  cases op <;> cases hkey <;> try cases hreads
  case get => exact .map _ (.bind (Store.local_readExisting (.self key)) fun _ => .pure _)
  case getAs kind => exact .map _ (Store.local_getAs key kind)
  case kindOf => exact .map _ (Store.local_kindOf key)
  case contains => exact .map _ (.bind (.get (.self key)) fun _ => .pure _)
  case getBit offset => exact .map _ (.bind (Bitmap.local_read key) fun _ => .pure _)
  case bitCount => exact .map _ (.bind (Bitmap.local_read key) fun _ => .pure _)
  case getExpiry => exact .map _ (.bind (Store.local_readExisting (.self key)) fun _ => .pure _)
  case listGet position => exact .map _ (Deque.local_get key position)
  case listRange start stop => exact .map _ (Deque.local_range key start stop)
  case listLength => exact .map _ (.bind (Deque.local_readHandle (.self key)) fun _ => .pure _)
  case mapGet field =>
      exact .map _ (.bind (hcount _) fun _ =>
        .bind (Store.local_readExisting (.item key _ _)) fun _ => .pure _)
  case mapContains field =>
      exact .map _ (.bind (hcount _) fun _ => .bind (.get (.item key _ _)) fun _ => .pure _)
  case mapSize => exact .map _ (.bind (hcount _) fun _ => .pure _)
  case mapEntries => exact .map _ (FieldMap.local_entries key)
  case mapFields => exact .map _ (.bind (FieldMap.local_entries key) fun _ => .pure _)
  case mapValues => exact .map _ (.bind (FieldMap.local_entries key) fun _ => .pure _)
  case setContains member =>
      exact .map _ (.bind (hcount _) fun _ => .bind (.get (.item key _ _)) fun _ => .pure _)
  case setSize => exact .map _ (.bind (hcount _) fun _ => .pure _)
  case setMembers => exact .map _ (MemberSet.local_members key)
  case bloomContains item => exact .map _ (Membership.local_contains key item)
  case bloomSize => exact .map _ (.bind (Membership.local_readHandle (.self key)) fun _ => .pure _)
  case seriesGet instant => exact .map _ (Series.local_get key instant)
  case seriesRange start stop => exact .map _ (Series.local_range key start stop)
  case seriesLatest => exact .map _ (Series.local_latest key)
  case seriesSize => exact .map _ (.bind (hcount _) fun _ => .pure _)
  case getDecrypted secret => exact .map _ (Secret.local_getDecrypted _ key secret)
  case verifyPassword password => exact .map _ (Secret.local_verifyPassword _ key password)

end StructuredStore
