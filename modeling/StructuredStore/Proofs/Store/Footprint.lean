import StructuredStore.Operation
import StructuredStore.Proofs.Engine.Outcome
import StructuredStore.Proofs.Store.Confinement

/-!
# Which keys an operation can touch

An operation on a logical key changes nothing but physical keys that the
logical key owns, whatever calls fail.  Only setting an expiry and sweeping
reach further: they work on the lists of the expiry buckets as well.

Main results:

- `Operation.key?`: the logical key an operation is about.
- `Operation.confined_perform`: such an operation is confined to what its key
  owns.
-/

namespace StructuredStore

open Engine (Confined Ends ReadOnly)

variable {keys : Bytes → Prop}

/-! ## Maps -/

namespace FieldMap

/-- Writing a field writes its row and the count. -/
theorem confined_set (key field : String) (value : Value) :
    Confined (Key.Owns key) (set key field value) := by
  refine .bind (Store.confined_readCount key _) fun ⟨count, expireAt⟩ => ?_
  refine .bind (.get _) fun found => ?_
  refine .bind (Store.confined_write (.item key _ _) _ _) fun _ => .ite (.pure _) ?_
  refine .bind (Store.confined_increment _) fun grown => ?_
  exact .bind (Store.confined_writeCount key _ _ _) fun _ => .pure _

/-- Reading a field changes nothing. -/
theorem confined_get (key field : String) : Confined keys (get key field) := by
  refine .bind (Store.confined_readCount key _) fun _ => ?_
  exact .bind (Store.confined_readExisting _) fun _ => .pure _

/-- Neither does asking whether it is there. -/
theorem confined_contains (key field : String) : Confined keys (contains key field) :=
  .bind (Store.confined_readCount key _) fun _ => .bind (.get _) fun _ => .pure _

/-- Removing a field removes its row and writes the count. -/
theorem confined_remove (key field : String) :
    Confined (Key.Owns key) (remove key field) := by
  refine .bind (Store.confined_readCount key _) fun ⟨count, expireAt⟩ => ?_
  refine .bind (.get _) fun found => .ite (.pure _) ?_
  refine .bind (.delete (.item key _ _)) fun _ => ?_
  exact .bind (Store.confined_writeCount key _ _ _) fun _ => .pure _

/-- The size is read from the metadata. -/
theorem confined_size (key : String) : Confined keys (size key) :=
  .bind (Store.confined_readCount key _) fun _ => .pure _

/-- Listing the entries changes nothing. -/
theorem confined_entries (key : String) : Confined keys (entries key) := by
  refine .bind (Store.confined_readCount key _) fun _ => ?_
  exact .bind (.scan _) fun rows => Store.confined_lift _

end FieldMap

/-! ## Sets -/

namespace MemberSet

/-- Adding a member writes its row and the count. -/
theorem confined_add (key member : String) : Confined (Key.Owns key) (add key member) := by
  refine .bind (Store.confined_readCount key _) fun ⟨count, expireAt⟩ => ?_
  refine .bind (.get _) fun found => .ite (.pure _) ?_
  refine .bind (Store.confined_write (.item key _ _) _ _) fun _ => ?_
  refine .bind (Store.confined_increment _) fun grown => ?_
  exact .bind (Store.confined_writeCount key _ _ _) fun _ => .pure _

/-- Removing a member removes its row and writes the count. -/
theorem confined_remove (key member : String) :
    Confined (Key.Owns key) (remove key member) := by
  refine .bind (Store.confined_readCount key _) fun ⟨count, expireAt⟩ => ?_
  refine .bind (.get _) fun found => .ite (.pure _) ?_
  refine .bind (.delete (.item key _ _)) fun _ => ?_
  exact .bind (Store.confined_writeCount key _ _ _) fun _ => .pure _

/-- Asking for a member changes nothing. -/
theorem confined_contains (key member : String) : Confined keys (contains key member) :=
  .bind (Store.confined_readCount key _) fun _ => .bind (.get _) fun _ => .pure _

/-- The size is read from the metadata. -/
theorem confined_size (key : String) : Confined keys (size key) :=
  .bind (Store.confined_readCount key _) fun _ => .pure _

/-- Listing the members changes nothing. -/
theorem confined_members (key : String) : Confined keys (members key) := by
  refine .bind (Store.confined_readCount key _) fun _ => ?_
  exact .bind (.scan _) fun rows => Store.confined_lift _

end MemberSet

/-! ## Time series -/

namespace Series

/-- The key of a point is that of an item, if the instant has a selector. -/
theorem pointKey_ok {instant : Instant} {selector : Bytes} (key : String)
    (h : Key.instantSelector instant = .ok selector) :
    pointKey key instant = pure (Key.item key .series selector) := by
  rw [pointKey, h]
  rfl

/-- A point whose instant has no selector has no key. -/
theorem pointKey_error {instant : Instant} {fault : DataError} (key : String)
    (h : Key.instantSelector instant = .error fault) :
    pointKey key instant = throw (.ofData fault) := by
  rw [pointKey, h]
  rfl

/-- The key of a point is made without the store. -/
theorem confined_pointKey (key : String) (instant : Instant) :
    Confined keys (pointKey key instant) :=
  .bind (Store.confined_lift _) fun _ => .pure _

/-- Adding a point writes its row and the count. -/
theorem confined_add (key : String) (instant : Instant) (value : Value) :
    Confined (Key.Owns key) (add key instant value) := by
  refine .bind (Store.confined_readCount key _) fun ⟨count, expireAt⟩ => ?_
  cases hpoint : Key.instantSelector instant with
  | error fault =>
      rw [pointKey_error key hpoint]
      exact .throw _
  | ok selector =>
      dsimp only
      rw [pointKey_ok key hpoint, pure_bind]
      refine .bind (.get _) fun found => ?_
      refine .bind (Store.confined_write (.item key _ _) _ _) fun _ => .ite (.pure _) ?_
      refine .bind (Store.confined_increment _) fun grown => ?_
      exact .bind (Store.confined_writeCount key _ _ _) fun _ => .pure _

/-- Reading a point changes nothing. -/
theorem confined_get (key : String) (instant : Instant) : Confined keys (get key instant) := by
  refine .bind (Store.confined_readCount key _) fun _ => ?_
  refine .bind (confined_pointKey key instant) fun point => ?_
  exact .bind (Store.confined_readExisting _) fun _ => .pure _

/-- Removing a point removes its row and writes the count. -/
theorem confined_remove (key : String) (instant : Instant) :
    Confined (Key.Owns key) (remove key instant) := by
  refine .bind (Store.confined_readCount key _) fun ⟨count, expireAt⟩ => ?_
  cases hpoint : Key.instantSelector instant with
  | error fault =>
      rw [pointKey_error key hpoint]
      exact .throw _
  | ok selector =>
      dsimp only
      rw [pointKey_ok key hpoint, pure_bind]
      refine .bind (.get _) fun found => .ite (.pure _) ?_
      refine .bind (.delete (.item key _ _)) fun _ => ?_
      exact .bind (Store.confined_writeCount key _ _ _) fun _ => .pure _

/-- Listing the points between two instants changes nothing. -/
theorem confined_range (key : String) (start stop : Instant) :
    Confined keys (range key start stop) := by
  refine .bind (Store.confined_readCount key _) fun _ => .ite (.pure _) ?_
  refine .bind (Store.confined_lift _) fun lower => ?_
  refine .bind (Store.confined_lift _) fun upper => ?_
  exact .bind (.visitUnder _ _ _) fun rows => Store.confined_lift _

/-- Looking for the latest point changes nothing. -/
theorem confined_latest (key : String) : Confined keys (latest key) := by
  refine .bind (Store.confined_readCount key _) fun _ => ?_
  refine .bind (.visitUnder _ _ _) fun last => ?_
  cases last with
  | none => exact .pure _
  | some row => exact .bind (Store.confined_lift _) fun _ => .pure _

/-- The size is read from the metadata. -/
theorem confined_size (key : String) : Confined keys (size key) :=
  .bind (Store.confined_readCount key _) fun _ => .pure _

end Series

/-! ## Membership filters -/

namespace Membership

/-- The metadata of a filter is only read. -/
theorem confined_readHandle (key : String) : Confined keys (readHandle key) := by
  refine .bind (Store.confined_readAs _ _) fun frame => ?_
  split
  · exact .pure _
  · exact .throw _

/-- The metadata of a filter lies at the key itself. -/
theorem confined_writeHandle (key : String) (handle : BloomHandle) (expireAt : Option Instant) :
    Confined (Key.Owns key) (writeHandle key handle expireAt) :=
  Store.confined_write (.self key) _ _

/-- A filter is made of its metadata, without items. -/
theorem confined_create (key : String) (slots : Option UInt8) (salt : String) :
    Confined (Key.Owns key) (create key slots salt) :=
  .guard (Store.confined_create key _)

/-- Adding an item writes its row and the count. -/
theorem confined_add (key item : String) : Confined (Key.Owns key) (add key item) := by
  refine .bind (confined_readHandle key) fun ⟨handle, expireAt⟩ => ?_
  refine .bind (.get _) fun found => ?_
  refine .bind (Store.confined_write (.item key _ _) _ _) fun _ => .ite (.pure _) ?_
  refine .bind (Store.confined_increment _) fun count => ?_
  exact .bind (confined_writeHandle key _ _) fun _ => .pure _

/-- Asking for an item changes nothing. -/
theorem confined_contains (key item : String) : Confined keys (contains key item) := by
  refine .bind (confined_readHandle key) fun ⟨handle, expireAt⟩ => ?_
  refine .bind (Store.confined_read _) fun found => ?_
  cases found with
  | none => exact .pure _
  | some frame => exact .pure _

/-- The size is read from the metadata. -/
theorem confined_size (key : String) : Confined keys (size key) :=
  .bind (confined_readHandle key) fun _ => .pure _

/-- Clearing a filter removes the rows under its marker and writes the metadata. -/
theorem confined_clear (key : String) : Confined (Key.Owns key) (clear key) := by
  refine .bind (confined_readHandle key) fun ⟨handle, expireAt⟩ => ?_
  refine .bind (Store.confined_removeItems fun _ => .under) fun _ => ?_
  exact confined_writeHandle key _ _

end Membership

/-! ## Bitmaps and secrets -/

namespace Bitmap

/-- A bit lies in the value of the key. -/
theorem confined_setBit (key : String) (offset : UInt64) (on : Bool) :
    Confined (Key.Owns key) (setBit key offset on) :=
  .guard (Store.confined_update key _)

/-- The bits of a key are only read. -/
theorem confined_read (key : String) : Confined keys (read key) := by
  refine .bind (Store.confined_getAs key _) fun value => ?_
  split
  · exact .pure _
  · exact .throw _

/-- Reading a bit changes nothing. -/
theorem confined_getBit (key : String) (offset : UInt64) : Confined keys (getBit key offset) :=
  .bind (confined_read key) fun _ => .pure _

/-- Counting bits changes nothing. -/
theorem confined_bitCount (key : String) : Confined keys (bitCount key) :=
  .bind (confined_read key) fun _ => .pure _

end Bitmap

namespace Secret

/-- A cipher is looked up without the store. -/
theorem confined_cipher (providers : Providers) (name : String) :
    Confined keys (providers.cipher name) := by
  unfold Providers.cipher Providers.find
  split
  · exact .pure _
  · exact .throw _

/-- So is a hasher. -/
theorem confined_hasher (providers : Providers) (name : String) :
    Confined keys (providers.hasher name) := by
  unfold Providers.hasher Providers.find
  split
  · exact .pure _
  · exact .throw _

/-- What a provider answers is passed on without the store. -/
theorem confined_guarded {α : Type} (failure : String → StoreError) (result : Except String α) :
    Confined keys (guarded failure result) := by
  cases result with
  | error reason => exact .throw _
  | ok a => exact .pure a

/-- An encrypted value is written at the key itself. -/
theorem confined_setEncrypted (providers : Providers) (key : String) (value : Value)
    (algorithm : String) (secret : Bytes) :
    Confined (Key.Owns key) (setEncrypted providers key value algorithm secret) := by
  refine .bind (confined_cipher providers algorithm) fun cipher => ?_
  refine .bind (Store.confined_lift _) fun plaintext => ?_
  exact .bind (confined_guarded _ _) fun ⟨_, _⟩ => Store.confined_set key _

/-- Decrypting a value changes nothing. -/
theorem confined_getDecrypted (providers : Providers) (key : String) (secret : Bytes) :
    Confined keys (getDecrypted providers key secret) := by
  refine .bind (Store.confined_getAs key _) fun value => ?_
  split
  · refine .bind (confined_cipher providers _) fun cipher => ?_
    refine .bind (confined_guarded _ _) fun plaintext => ?_
    split
    · exact .pure _
    · exact .throw _
  · exact .throw _

/-- A hashed password is written at the key itself. -/
theorem confined_setPassword (providers : Providers) (key password algorithm : String)
    (cost : HashCost) :
    Confined (Key.Owns key) (setPassword providers key password algorithm cost) := by
  refine .bind (confined_hasher providers algorithm) fun hasher => ?_
  exact .bind (confined_guarded _ _) fun ⟨_, _⟩ => Store.confined_set key _

/-- Verifying a password changes nothing. -/
theorem confined_verifyPassword (providers : Providers) (key password : String) :
    Confined keys (verifyPassword providers key password) := by
  refine .bind (Store.confined_getAs key _) fun value => ?_
  split
  · exact .bind (confined_hasher providers _) fun hasher => confined_guarded _ _
  · exact .throw _

end Secret

/-! ## Repair -/

namespace Repair

/-- A recount reads the items and writes the metadata. -/
theorem confined_recount (key : String) (marker : Key.Marker) (before : UInt64)
    (metadata : UInt64 → Value) (expireAt : Option Instant) :
    Confined (Key.Owns key) (recount key marker before metadata expireAt) := by
  refine .bind (Store.confined_countItems key marker) fun count => .ite ?_ (.pure _)
  exact .bind (Store.confined_write (.self key) _ _) fun _ => .pure _

/-- Moving items touches nothing but items. -/
theorem confined_moveItem {key : String} (hkeys : ∀ index, keys (Key.listItem key index))
    (source target : Int64) : Confined keys (moveItem key source target) := by
  refine .bind (.get _) fun found => ?_
  cases found with
  | none => exact .pure _
  | some bytes =>
      refine .bind (.set (hkeys target) bytes) fun _ => ?_
      exact .bind (.delete (hkeys source)) fun _ => .pure _

/-- Closing holes moves items of the list. -/
theorem confined_closeHoles {key : String} (hkeys : ∀ index, keys (Key.listItem key index))
    (target : Int64) (present : List Int64) :
    Confined keys (closeHoles key target present) := by
  induction present generalizing target with
  | nil => exact .pure _
  | cons index rest ih =>
      refine .ite ?_ ?_
      · exact .bind (.pure _) fun _ => .bind (ih (target + 1)) fun _ => .pure _
      · exact .bind (confined_moveItem hkeys _ _) fun _ => .bind (ih (target + 1)) fun _ => .pure _

/-- The metadata of a repaired list is computed without the store. -/
theorem confined_handleFrom {keys : Bytes → Prop} (first : Int64) (count : Nat) :
    Confined keys (handleFrom first count) := by
  refine .bind (Deque.confined_inRange _ _) fun next => ?_
  exact .bind (Deque.confined_inRange _ _) fun tail => .pure _

/-- Repairing a list moves its items and writes its metadata. -/
theorem confined_repairList (key : String) (handle : ListHandle) (expireAt : Option Instant) :
    Confined (Key.Owns key) (repairList key handle expireAt) := by
  have hwrite : ∀ next : ListHandle,
      Confined (Key.Owns key) (Store.write (Key.ofText key) (.list next) expireAt) :=
    fun next => Store.confined_write (.self key) _ _
  refine .bind (.scan _) fun rows => ?_
  refine .bind (Store.confined_lift _) fun present => ?_
  cases present with
  | nil => exact .bind (.pure _) fun _ => .ite (.bind (hwrite _) fun _ => .pure _) (.pure _)
  | cons first rest =>
      refine .bind (confined_closeHoles (.listItem key) first _) fun moved => ?_
      refine .bind (confined_handleFrom first _) fun next => ?_
      exact .bind (.pure _) fun _ => .ite (.bind (hwrite _) fun _ => .pure _) (.pure _)

/-- A repair stays with the metadata and the items of its key. -/
theorem confined_repair (key : String) : Confined (Key.Owns key) (repair key) := by
  refine .bind (Store.confined_readExisting _) fun frame => ?_
  split
  · exact confined_repairList key _ _
  · exact confined_recount key _ _ _ _
  · exact confined_recount key _ _ _ _
  · exact confined_recount key _ _ _ _
  · exact confined_recount key _ _ _ _
  · exact .pure _

end Repair

/-! ## Expiries -/

namespace Expiry

/-- An expiry is stamped into the frame of the key. -/
theorem confined_stamp (key : String) (instant : Instant) :
    Confined (Key.Owns key) (stamp key instant) :=
  .bind (Store.confined_readExisting _) fun _ => Store.confined_write (.self key) _ _

/-- Enlisting a name changes the list of the bucket only. -/
theorem confined_enlist (bucket key : String) : Confined (Key.Owns bucket) (enlist bucket key) :=
  .bind (Deque.confined_pushRightCreating bucket _) fun _ => .pure _

/-- Settling a candidate removes what it owns, at most. -/
theorem confined_settle (width : BucketWidth) (now : Instant) (bucket name : String) :
    Confined (Key.Owns name) (settle width now bucket name) := by
  apply Confined.bind (Store.confined_read _)
  intro found
  match found with
  | none => exact .pure _
  | some ⟨value, none⟩ => exact .pure _
  | some ⟨value, some instant⟩ =>
      refine .ite (.bind (Store.confined_purge name value) fun _ => .pure _) ?_
      exact .ite (.pure _) (.pure _)

/-- Clearing an expiry writes the frame of the key. -/
theorem confined_clear (key : String) : Confined (Key.Owns key) (clear key) := by
  refine .bind (Store.confined_readExisting _) fun frame => .ite ?_ (.pure _)
  exact Store.confined_write (.self key) _ _

/-- Asking for an expiry changes nothing. -/
theorem confined_get (key : String) : Confined keys (get key) :=
  .bind (Store.confined_readExisting _) fun _ => .pure _

end Expiry

/-! ## Operations -/

namespace Operation

/-- The logical key that an operation is about, if it is about one. -/
def key? : Operation → Option String
  | .flush | .sweep _ | .sweepNow => none
  | .set key _ | .get key | .getAs key _ | .kindOf key | .contains key | .delete key
  | .increase key _ | .increaseFloat key _ | .increaseDecimal key _
  | .setBit key _ _ | .getBit key _ | .bitCount key
  | .expireAt key _ | .expireIn key _ | .clearExpiry key | .getExpiry key | .repair key
  | .listCreate key | .listPush key _ _ | .listPop key _ | .listGet key _
  | .listRange key _ _ | .listSet key _ _ | .listTrim key _ _ | .listLength key
  | .listDelete key
  | .mapCreate key | .mapSet key _ _ | .mapGet key _ | .mapContains key _ | .mapRemove key _
  | .mapSize key | .mapEntries key | .mapFields key | .mapValues key | .mapDelete key
  | .setCreate key | .setAdd key _ | .setRemove key _ | .setContains key _ | .setSize key
  | .setMembers key | .setDelete key
  | .bloomCreate key _ _ | .bloomAdd key _ | .bloomContains key _ | .bloomSize key
  | .bloomClear key | .bloomDelete key
  | .seriesCreate key | .seriesAdd key _ _ | .seriesGet key _ | .seriesRemove key _
  | .seriesRange key _ _ | .seriesLatest key | .seriesSize key | .seriesDelete key
  | .setEncrypted key _ _ _ | .getDecrypted key _ | .setPassword key _ _ _
  | .verifyPassword key _ => some key

/-- Whether an operation sets an expiry, and so lists its key in a bucket. -/
def schedules : Operation → Bool
  | .expireAt _ _ | .expireIn _ _ => true
  | _ => false

/-- The expiry that an operation asks for at an instant. -/
def expiry? (now : Instant) : Operation → Option Instant
  | .expireAt _ instant => some instant
  | .expireIn _ span => now.add? span
  | _ => none

/-- An answer that is kept back changes nothing further. -/
theorem confined_silent {action : StoreM Unit} (h : Confined keys action) :
    Confined keys (silent action) :=
  .bind h fun _ => .pure _

/-- What holds behind an operation without an answer of its own. -/
theorem ends_silent {table : Table} {action : StoreM Unit}
    {post : Except StoreError Reply → Table → Prop}
    (h : Ends table action fun outcome after => post (outcome.map fun _ => .done) after) :
    Ends table (silent action) post :=
  .bind h (fun _ _ hpost => hpost) fun _ _ hpost => .pure hpost

/-- Whether an operation only looks. -/
def reads : Operation → Bool
  | .get _ | .getAs _ _ | .kindOf _ | .contains _ | .getBit _ _ | .bitCount _ | .flush
  | .getExpiry _ | .listGet _ _ | .listRange _ _ _ | .listLength _ | .mapGet _ _
  | .mapContains _ _ | .mapSize _ | .mapEntries _ | .mapFields _ | .mapValues _
  | .setContains _ _ | .setSize _ | .setMembers _ | .bloomContains _ _ | .bloomSize _
  | .seriesGet _ _ | .seriesRange _ _ _ | .seriesLatest _ | .seriesSize _
  | .getDecrypted _ _ | .verifyPassword _ _ => true
  | _ => false

/-- An operation that only looks writes nothing. -/
theorem readOnly_perform (env : Environment) {op : Operation} (h : op.reads = true) :
    ReadOnly (op.perform env) := by
  cases op <;> try cases h
  case get key => exact .map _ (Store.confined_get key)
  case getAs key kind => exact .map _ (Store.confined_getAs key kind)
  case kindOf key => exact .map _ (Store.confined_kindOf key)
  case contains key => exact .map _ (Store.confined_contains key)
  case getBit key offset => exact .map _ (Bitmap.confined_getBit key offset)
  case bitCount key => exact .map _ (Bitmap.confined_bitCount key)
  case flush => exact confined_silent .flush
  case getExpiry key => exact .map _ (Expiry.confined_get key)
  case listGet key position => exact .map _ (Deque.confined_get key position)
  case listRange key start stop => exact .map _ (Deque.confined_range key start stop)
  case listLength key => exact .map _ (Deque.confined_length key)
  case mapGet key field => exact .map _ (FieldMap.confined_get key field)
  case mapContains key field => exact .map _ (FieldMap.confined_contains key field)
  case mapSize key => exact .map _ (FieldMap.confined_size key)
  case mapEntries key => exact .map _ (FieldMap.confined_entries key)
  case mapFields key => exact .map _ (.bind (FieldMap.confined_entries key) fun _ => .pure _)
  case mapValues key => exact .map _ (.bind (FieldMap.confined_entries key) fun _ => .pure _)
  case setContains key member => exact .map _ (MemberSet.confined_contains key member)
  case setSize key => exact .map _ (MemberSet.confined_size key)
  case setMembers key => exact .map _ (MemberSet.confined_members key)
  case bloomContains key item => exact .map _ (Membership.confined_contains key item)
  case bloomSize key => exact .map _ (Membership.confined_size key)
  case seriesGet key instant => exact .map _ (Series.confined_get key instant)
  case seriesRange key start stop => exact .map _ (Series.confined_range key start stop)
  case seriesLatest key => exact .map _ (Series.confined_latest key)
  case seriesSize key => exact .map _ (Series.confined_size key)
  case getDecrypted key secret => exact .map _ (Secret.confined_getDecrypted _ key secret)
  case verifyPassword key password => exact .map _ (Secret.confined_verifyPassword _ key password)

/-- An operation that sets no expiry changes only what its key owns. -/
theorem confined_perform (env : Environment) {op : Operation} {key : String}
    (hkey : op.key? = some key) (hschedules : op.schedules = false) :
    Confined (Key.Owns key) (op.perform env) := by
  refine (Decidable.em (op.reads = true)).elim
    (fun hreads => .of_readOnly (readOnly_perform env hreads)) fun hreads => ?_
  cases op <;> cases hkey <;> cases hschedules <;> try exact absurd rfl hreads
  case set value => exact confined_silent (Store.confined_set key value)
  case delete => exact confined_silent (Store.confined_delete key)
  case increase amount => exact .map _ (Store.confined_update key _)
  case increaseFloat amount => exact .map _ (Store.confined_update key _)
  case increaseDecimal amount => exact .map _ (Store.confined_update key _)
  case setBit offset on => exact .map _ (Bitmap.confined_setBit key offset on)
  case clearExpiry => exact confined_silent (Expiry.confined_clear key)
  case repair => exact .map _ (Repair.confined_repair key)
  case listCreate => exact confined_silent (Store.confined_create key _)
  case listPush side value => exact .map _ (Deque.confined_push key value side)
  case listPop side => exact .map _ (Deque.confined_pop key side)
  case listSet position value => exact confined_silent (Deque.confined_set key position value)
  case listTrim start stop => exact confined_silent (Deque.confined_trim key start stop)
  case listDelete => exact confined_silent (Store.confined_deleteAs key _)
  case mapCreate => exact confined_silent (Store.confined_create key _)
  case mapSet field value => exact .map _ (FieldMap.confined_set key field value)
  case mapRemove field => exact .map _ (FieldMap.confined_remove key field)
  case mapDelete => exact confined_silent (Store.confined_deleteAs key _)
  case setCreate => exact confined_silent (Store.confined_create key _)
  case setAdd member => exact .map _ (MemberSet.confined_add key member)
  case setRemove member => exact .map _ (MemberSet.confined_remove key member)
  case setDelete => exact confined_silent (Store.confined_deleteAs key _)
  case bloomCreate slots salt => exact confined_silent (Membership.confined_create key slots salt)
  case bloomAdd item => exact .map _ (Membership.confined_add key item)
  case bloomClear => exact confined_silent (Membership.confined_clear key)
  case bloomDelete => exact confined_silent (Store.confined_deleteAs key _)
  case seriesCreate => exact confined_silent (Store.confined_create key _)
  case seriesAdd instant value => exact .map _ (Series.confined_add key instant value)
  case seriesRemove instant => exact .map _ (Series.confined_remove key instant)
  case seriesDelete => exact confined_silent (Store.confined_deleteAs key _)
  case setEncrypted value algorithm secret =>
      exact confined_silent (Secret.confined_setEncrypted _ key value algorithm secret)
  case setPassword password algorithm cost =>
      exact confined_silent (Secret.confined_setPassword _ key password algorithm cost)

end Operation
end StructuredStore
