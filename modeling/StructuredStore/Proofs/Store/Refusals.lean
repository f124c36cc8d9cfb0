import StructuredStore.Proofs.Engine.Refusing
import StructuredStore.Proofs.Store.Preservation
import StructuredStore.Proofs.Store.Removals

/-!
# Refused operations

An operation that fails without a failing call was refused by one of its own
checks.  These stand in front of its writes, and what is written behind the
first row is metadata that was read before and can be written again, so a
refused operation leaves every row as it was.  One check comes too late: that
a structure can count one more item is found out once the item is written.

An operation that breaks off is not refused.  Behind a write only popping, trimming
and repairing a list may break off, on metadata that no operation wrote.

Main results:

- `sure_rewrite`, `sure_purge`: writes and removals that cannot fail.
- `Overfull`: an item that its structure could not count.
- `Operation.refusal_changes_nothing`: what a refused operation leaves.
-/

namespace StructuredStore

open Engine

namespace Store

variable {spoilt : StoreError → Table → Prop} {table : Table} {key : String}

/-! ## Steps that succeed -/

/-- A frame that can be written is written. -/
theorem sure_write {physical : Bytes} {value : Value} {expireAt : Option Instant} {bytes : Bytes}
    (h : Frame.encode ⟨value, expireAt⟩ = .ok bytes) : Sure (write physical value expireAt) :=
  .of_run fun _ => ⟨(), _, run_write h⟩

/-- Metadata with the expiry of a frame that was read can be written. -/
theorem sure_rewrite {physical other : Bytes} {frame : Frame} {value : Value} {body : Bytes}
    (hframe : table.HasFrame physical frame) (h : Frame.payload value = .ok body) :
    Sure (write other value frame.expireAt) := by
  obtain ⟨bytes, hbytes⟩ := Frame.exists_encode h hframe.asStored_expireAt
  exact sure_write hbytes

/-- What is removed without reading is removed without refusals. -/
theorem sure_of_strips {keys : Bytes → Prop} {action : StoreM Unit} (h : Strips keys action) :
    Sure action :=
  .of_run fun table => ⟨(), h.exists_run table⟩

/-- Items of a structure are removed without refusals, -/
theorem sure_removeItems (key : String) (marker : Key.Marker) : Sure (removeItems key marker) :=
  sure_of_strips (strips_removeItems key marker)

/-- and so are those of a list. -/
theorem sure_removeIndices (key : String) (first : Int64) (count : Nat) :
    Sure (removeIndices key first count) := by
  obtain ⟨_, _, hstrips⟩ := strips_removeIndices key first count
  exact sure_of_strips hstrips

/-- A value is removed without refusals. -/
theorem sure_purge (key : String) (value : Value) : Sure (purge key value) := by
  intro table
  apply (ends_purge table key value).conseq
  exact fun outcome after h => ⟨(), h.1⟩

/-! ## Steps that are refused -/

/-- A frame that cannot be encoded is refused in front of the write. -/
theorem refuses_write (physical : Bytes) (value : Value) (expireAt : Option Instant) :
    Refuses spoilt table (write physical value expireAt) := by
  apply (ends_write table physical value expireAt).conseq
  rintro outcome after hafter e rfl
  exact Or.inl hafter

/-- A structure is refused in front of the write of its metadata. -/
theorem refuses_create (key : String) (metadata : Value) :
    Refuses spoilt table (create key metadata) := by
  apply (ends_create table key metadata).conseq
  rintro outcome after hafter e rfl
  exact Or.inl hafter

/-- A value of another kind is refused before it is removed. -/
theorem refuses_deleteAs (key : String) (kind : Kind) :
    Refuses spoilt table (deleteAs key kind) :=
  .bind_readOnly (confined_readAs _ kind) fun frame => .of_sure (sure_purge key frame.value)

/-- A key that is not there is refused before anything is removed. -/
theorem refuses_delete (key : String) : Refuses spoilt table (delete key) :=
  .bind_readOnly (confined_readExisting _) fun frame => .of_sure (sure_purge key frame.value)

/-- A reserved key is refused in front of the write. -/
theorem refuses_set (key : String) (value : Value) : Refuses spoilt table (set key value) := by
  have hwrite : Refuses spoilt table (write (Key.ofText key) value none) := refuses_write _ _ _
  apply Refuses.guard
  intro _
  apply Refuses.bind_readOnly (confined_requireUnreserved key)
  intro _
  apply Refuses.bind_readOnly (.get _)
  intro found
  cases found with
  | none => exact hwrite
  | some bytes => exact .bind_readOnly (confined_lift _) fun _ => .guard fun _ => hwrite

/-- An update is refused before the new value is written. -/
theorem refuses_update {α : Type} (key : String)
    (next : Option Value → Except StoreError (Value × α)) :
    Refuses spoilt table (update key next) := by
  apply Refuses.bind_readOnly (confined_read _)
  intro frame
  split
  · exact .throw _
  · exact .bind_sure (refuses_write _ _ _) fun _ => .pure _

/-! ## Items that are counted -/

/-- Whether an item was written that its structure cannot count: the count was
the greatest one. -/
def Overfull (key : String) (table after : Table) : Prop :=
  ∃ marker metadata expireAt physical item, Counts marker metadata ∧
    table.HasFrame (Key.ofText key) ⟨metadata 18446744073709551615, expireAt⟩ ∧
    Key.itemStem key marker <+: physical ∧ table.get? physical = none ∧
    after = table.insert physical item

variable {marker : Key.Marker} {metadata : UInt64 → Value} {count : UInt64}
  {expireAt : Option Instant} {physical item : Bytes}

/-- What is counted behind a new item is refused only if the structure is full. -/
theorem ends_count (hcounts : Counts marker metadata)
    (hframe : table.HasFrame (Key.ofText key) ⟨metadata count, expireAt⟩)
    (hphysical : Key.itemStem key marker <+: physical) (hget : table.get? physical = none) :
    Ends (table.insert physical item)
      (do
        let count ← increment count
        write (Key.ofText key) (metadata count) expireAt
        return count)
      fun outcome after => ∀ e, outcome = .error e → e = .overflow ∧ Overfull key table after := by
  by_cases hroom : count.toNat < 18446744073709551615
  · obtain ⟨contents, hcontents⟩ := hcounts.exists_encode (count + 1) hframe.asStored_expireAt
    refine .bind_run (run_increment hroom _) (.bind_run (run_write hcontents) (.pure ?_))
    intro e heq
    cases heq
  · have hfull : count = 18446744073709551615 := by
      apply UInt64.toNat_inj.mp
      have hlt := count.toNat_lt
      have hmax : (18446744073709551615 : UInt64).toNat = 18446744073709551615 := rfl
      omega
    subst hfull
    rw [increment, if_neg hroom]
    refine .bind_error (by rfl) ?_
    rintro e heq
    cases heq
    exact ⟨rfl, marker, metadata, expireAt, physical, item, hcounts, hframe, hphysical, hget, rfl⟩

/-- Whether an update of an item is refused as it should be, or left an item
that its structure cannot count. -/
abbrev RefusesItem {α : Type} (key : String) (table : Table) (action : StoreM α) : Prop :=
  Refuses (fun e after => e = .overflow ∧ Overfull key table after) table action

/-- An item is written and counted if it is new; one that is known is not
counted. -/
theorem refuses_addItem {body : Option Bytes → StoreM UInt64} (hcounts : Counts marker metadata)
    (hframe : table.HasFrame (Key.ofText key) ⟨metadata count, expireAt⟩)
    (hphysical : Key.itemStem key marker <+: physical) (value : Value)
    (hnew : body none = do
      write physical value none
      let count ← increment count
      write (Key.ofText key) (metadata count) expireAt
      return count)
    (hknown : ∀ found, RefusesItem key table (body (some found))) :
    RefusesItem key table (Engine.get physical >>= body) := by
  refine .bind_run (run_get table physical) ?_
  cases hget : table.get? physical with
  | some found => exact hknown found
  | none =>
      rw [hnew]
      cases hitem : Frame.encode ⟨value, none⟩ with
      | error fault => exact .bind_error (run_write_error hitem) fun _ _ => Or.inl rfl
      | ok item =>
          refine .bind_run (run_write hitem) ((ends_count hcounts hframe hphysical hget).conseq ?_)
          exact fun outcome after hafter e heq => Or.inr (hafter e heq)

/-- An item is put in front of its count, which may be full already. -/
theorem refuses_putItem (hcounts : Counts marker metadata)
    (hframe : table.HasFrame (Key.ofText key) ⟨metadata count, expireAt⟩)
    (hphysical : Key.itemStem key marker <+: physical) (value : Value) :
    RefusesItem key table
      (do
        let known := (← Engine.get physical).isSome
        write physical value none
        if known then return count
        let count ← increment count
        write (Key.ofText key) (metadata count) expireAt
        return count) :=
  refuses_addItem hcounts hframe hphysical value rfl fun _ =>
    .bind_sure (refuses_write _ _ _) fun _ => .pure count

/-- So is an item that is new. -/
theorem refuses_putNewItem (hcounts : Counts marker metadata)
    (hframe : table.HasFrame (Key.ofText key) ⟨metadata count, expireAt⟩)
    (hphysical : Key.itemStem key marker <+: physical) (value : Value) :
    RefusesItem key table
      (do
        if (← Engine.get physical).isSome then return count
        write physical value none
        let count ← increment count
        write (Key.ofText key) (metadata count) expireAt
        return count) :=
  refuses_addItem hcounts hframe hphysical value rfl fun _ => .pure count

/-- Taking an item makes the count smaller, which is never refused. -/
theorem refuses_takeItem (hcounts : Counts marker metadata)
    (hframe : table.HasFrame (Key.ofText key) ⟨metadata count, expireAt⟩) (physical : Bytes) :
    Refuses spoilt table
      (do
        if (← Engine.get physical).isNone then return count
        Engine.delete physical
        write (Key.ofText key) (metadata (decrement count)) expireAt
        return decrement count) := by
  obtain ⟨contents, hcontents⟩ := hcounts.exists_encode (decrement count) hframe.asStored_expireAt
  apply Refuses.bind_readOnly (.get physical)
  intro found
  apply Refuses.ite (.pure count)
  exact .of_sure (.bind (.delete _) fun _ => .bind (sure_write hcontents) fun _ => .pure _)

/-! ## Metadata that is read first -/

/-- The count of a structure that is read first. -/
theorem refuses_counted {α : Type} {counted : Counted} {rest : UInt64 × Option Instant → StoreM α}
    (hrest : ∀ count expireAt,
      table.HasFrame (Key.ofText key) ⟨counted.metadata count, expireAt⟩ →
      Refuses spoilt table (rest (count, expireAt))) :
    Refuses spoilt table (readCount key counted >>= rest) :=
  .bind_finds (ends_readCount table key counted) fun found hframe =>
    hrest found.1 found.2 hframe

/-- What stands behind the metadata of a filter. -/
theorem refuses_bloom {α : Type} {rest : BloomHandle × Option Instant → StoreM α}
    (hrest : ∀ handle expireAt, table.HasFrame (Key.ofText key) ⟨.bloom handle, expireAt⟩ →
      Refuses spoilt table (rest (handle, expireAt))) :
    Refuses spoilt table (Membership.readHandle key >>= rest) :=
  .bind_finds (Holds.ends_readBloom table key) fun found hframe => hrest found.1 found.2 hframe

end Store

open Store

variable {spoilt : StoreError → Table → Prop} {table : Table}

/-! ## Lists -/

namespace Deque

/-- What stands behind the metadata of a list: it is written again without refusals.
-/
theorem refuses_list {α : Type} {key : String} {rest : ListHandle × Option Instant → StoreM α}
    (hrest : ∀ handle expireAt, (∀ next, Sure (writeHandle key next expireAt)) →
      Refuses spoilt table (rest (handle, expireAt))) :
    Refuses spoilt table (readHandle key >>= rest) :=
  .bind_finds (ends_readHandle table key) fun found hframe =>
    hrest found.1 found.2 fun _ => sure_rewrite hframe rfl

/-- A push checks its sums in front of both writes. -/
theorem refuses_push (key : String) (value : Value) (side : End) :
    Refuses spoilt table (push key value side) := by
  apply refuses_list
  intro handle expireAt hwrite
  apply Refuses.bind_readOnly (confined_grow handle side)
  intro ⟨grown, index⟩
  exact .bind_sure (refuses_write _ value none) fun _ => .bind (hwrite grown) fun _ => .pure _

/-- Unchecked arithmetic answers or breaks off. -/
theorem unrefused_inRange (cause : Abort) (i : Int) : Unrefused (inRange cause i) :=
  .of_cases ((inRange_cases cause i).imp_right fun heq => ⟨cause, heq⟩)

/-- Metadata shrinks or breaks off. -/
theorem unrefused_shrink (handle : ListHandle) (side : End) : Unrefused (shrink handle side) :=
  .of_cases ((shrink_cases handle side).imp_left fun heq => ⟨_, heq⟩)

/-- A pop refuses in front of the removal, but may break off behind it. -/
theorem refuses_pop (key : String) (side : End)
    (hbroken : ∀ cause after, spoilt (.aborted cause) after) :
    Refuses spoilt table (pop key side) := by
  apply refuses_list
  intro handle expireAt hwrite
  apply Refuses.guard
  intro _
  apply Refuses.bind_readOnly (confined_requireItem key _)
  intro value
  refine .of_unrefused (.bind (Sure.delete _).unrefused fun _ => ?_) hbroken
  refine .bind (unrefused_shrink handle side) fun next => ?_
  exact Sure.unrefused (.bind (hwrite next) fun _ => .pure value)

/-- A position out of range is refused in front of the write. -/
theorem refuses_set (key : String) (position : Int64) (value : Value) :
    Refuses spoilt table (set key position value) := by
  apply Refuses.bind_readOnly (confined_readHandle key)
  intro found
  apply Refuses.bind_readOnly (confined_locate _ position)
  exact fun index => refuses_write _ value none

/-- Trimming refuses nothing behind its reads, but may break off between its removals.
-/
theorem refuses_trim (key : String) (start stop : Int64)
    (hbroken : ∀ cause after, spoilt (.aborted cause) after) :
    Refuses spoilt table (trim key start stop) := by
  apply refuses_list
  intro handle expireAt hwrite
  apply Refuses.ite (.pure ())
  split
  · exact .of_sure (.bind (sure_removeIndices _ _ _) fun _ => hwrite _)
  · apply Refuses.bind_readOnly (confined_inRange _ _)
    intro head
    apply Refuses.bind_readOnly (confined_inRange _ _)
    intro tail
    refine .of_unrefused (.bind (sure_removeIndices _ _ _).unrefused fun _ => ?_) hbroken
    refine .bind (unrefused_inRange _ _) fun next => ?_
    exact Sure.unrefused (.bind (sure_removeIndices _ _ _) fun _ => hwrite _)

end Deque

/-! ## Filters, series and secrets -/

/-- Clearing is refused in front of the removals only. -/
theorem Membership.refuses_clear (key : String) : Refuses spoilt table (clear key) := by
  apply refuses_bloom
  intro handle expireAt hframe
  obtain ⟨contents, hcontents⟩ :=
    (Counts.of_bloom hframe).exists_encode 0 hframe.asStored_expireAt
  exact .of_sure (.bind (sure_removeItems key .bloom) fun _ => sure_write hcontents)

/-- A point without a key is refused in front of what follows. -/
theorem Series.refuses_point {α : Type} {key : String} {instant : Instant}
    {rest : Bytes → StoreM α}
    (hrest : ∀ selector, Refuses spoilt table (rest (Key.item key .series selector))) :
    Refuses spoilt table (pointKey key instant >>= rest) := by
  cases hselector : Key.instantSelector instant with
  | error fault =>
      rw [pointKey_error key hselector]
      exact Ends.bind_error rfl fun _ _ => Or.inl rfl
  | ok selector =>
      rw [pointKey_ok key hselector, pure_bind]
      exact hrest selector

/-- A value is encrypted in front of the write. -/
theorem Secret.refuses_setEncrypted (providers : Providers) (key : String) (value : Value)
    (algorithm : String) (secret : Bytes) :
    Refuses spoilt table (setEncrypted providers key value algorithm secret) := by
  apply Refuses.bind_readOnly (confined_cipher providers algorithm)
  intro cipher
  apply Refuses.bind_readOnly (confined_lift _)
  intro plaintext
  exact .bind_readOnly (confined_guarded _ _) fun ⟨_, _⟩ => Store.refuses_set key _

/-- A password is hashed in front of the write. -/
theorem Secret.refuses_setPassword (providers : Providers) (key password algorithm : String)
    (cost : HashCost) :
    Refuses spoilt table (setPassword providers key password algorithm cost) := by
  apply Refuses.bind_readOnly (confined_hasher providers algorithm)
  intro hasher
  exact .bind_readOnly (confined_guarded _ _) fun ⟨_, _⟩ => Store.refuses_set key _

/-! ## Expiry and repair -/

/-- The frame is written again with an encoding that it had. -/
theorem Expiry.refuses_clear (key : String) : Refuses spoilt table (clear key) := by
  apply Refuses.bind_readOnly (confined_readExisting _)
  intro frame
  exact .ite (refuses_write _ _ _) (.pure _)

namespace Repair

/-- A move that is begun is not refused. -/
theorem sure_moveItem (key : String) (source target : Int64) :
    Sure (moveItem key source target) := by
  apply Sure.bind (.get _)
  intro found
  cases found with
  | none => exact .pure false
  | some bytes => exact .bind (.set _ _) fun _ => .bind (.delete _) fun _ => .pure true

/-- Nor is the closing of holes. -/
theorem sure_closeHoles (key : String) (target : Int64) (present : List Int64) :
    Sure (closeHoles key target present) := by
  induction present generalizing target with
  | nil => exact .pure false
  | cons index rest ih =>
      have hrest (moved : Bool) : Sure (do
          let others ← closeHoles key (target + 1) rest
          return moved || others) :=
        .bind (ih (target + 1)) fun _ => .pure _
      by_cases hstay : target = index
      · rw [closeHoles, if_pos hstay]
        exact .bind (.pure false) hrest
      · rw [closeHoles, if_neg hstay]
        exact .bind (sure_moveItem key index target) hrest

/-- Metadata that is written where it differs from what was read. -/
theorem sure_amend {α : Type} {physical : Bytes} {value : Value} {expireAt : Option Instant}
    {bytes : Bytes} {changed : Prop} [Decidable changed] {answer : α}
    (h : Frame.encode ⟨value, expireAt⟩ = .ok bytes) :
    Sure (do
      if changed then write physical value expireAt
      return answer) := by
  split
  · exact .bind (sure_write h) fun _ => .pure answer
  · exact .pure answer

/-- The metadata with another count can be encoded. -/
theorem sure_recount {key : String} {marker : Key.Marker} {metadata : UInt64 → Value}
    {before : UInt64} {expireAt : Option Instant} (hcounts : Counts marker metadata)
    (hframe : table.HasFrame (Key.ofText key) ⟨metadata before, expireAt⟩) :
    Sure (recount key marker before metadata expireAt) := by
  have hcount : Sure (countItems key marker) :=
    .of_run fun table => ⟨_, table, run_countItems table key marker⟩
  apply Sure.bind hcount
  intro count
  obtain ⟨contents, hcontents⟩ :=
    hcounts.exists_encode (UInt64.ofNat count) hframe.asStored_expireAt
  exact sure_amend hcontents

/-- Metadata of consecutive items is made or breaks off. -/
theorem unrefused_handleFrom (first : Int64) (count : Nat) :
    Unrefused (handleFrom first count) :=
  .of_cases ((handleFrom_cases first count).imp_left fun heq => ⟨_, heq⟩)

/-- A repair of a list reads all its items first; behind the moves it may break off.
-/
theorem refuses_repairList {key : String} {handle : ListHandle} {expireAt : Option Instant}
    (hframe : table.HasFrame (Key.ofText key) ⟨.list handle, expireAt⟩)
    (hbroken : ∀ cause after, spoilt (.aborted cause) after) :
    Refuses spoilt table (repairList key handle expireAt) := by
  apply Refuses.bind_readOnly (.scan _)
  intro rows
  apply Refuses.bind_readOnly (confined_lift _)
  intro present
  have hwrite (next : ListHandle) (moved : Bool) : Sure (do
      if next ≠ handle then write (Key.ofText key) (.list next) expireAt
      return (⟨.list, handle.length.toInt.toNat, next.length.toUInt64.toNat,
        moved || next != handle⟩ : Report)) := by
    obtain ⟨contents, hcontents⟩ := @Frame.exists_encode (.list next) expireAt _ rfl
      hframe.asStored_expireAt
    exact sure_amend hcontents
  refine .of_unrefused ?_ hbroken
  cases present with
  | nil => exact Sure.unrefused (.bind (.pure _) fun next => hwrite next.1 next.2)
  | cons first rest =>
      refine .bind (sure_closeHoles key first (first :: rest)).unrefused fun moved => ?_
      refine .bind (unrefused_handleFrom first _) fun next => ?_
      exact (hwrite next moved).unrefused

/-- A repair refuses what it cannot read in front of its writes. -/
theorem refuses_repair (key : String) (hbroken : ∀ cause after, spoilt (.aborted cause) after) :
    Refuses spoilt table (repair key) := by
  apply Refuses.bind_finds (ends_readExisting table (Key.ofText key))
  intro ⟨value, expireAt⟩ hframe
  cases value with
  | list handle => exact refuses_repairList hframe hbroken
  | map count => exact .of_sure (sure_recount (.counted .map) hframe)
  | set count => exact .of_sure (sure_recount (.counted .set) hframe)
  | series count => exact .of_sure (sure_recount (.counted .series) hframe)
  | bloom handle => exact .of_sure (sure_recount (.of_bloom hframe) hframe)
  | _ => exact .pure _

end Repair

/-! ## Operations -/

namespace Operation

/-- Whether an operation may add an item to a structure that counts its items. -/
def addsItem : Operation → Bool
  | .mapSet _ _ _ | .setAdd _ _ | .bloomAdd _ _ | .seriesAdd _ _ _ => true
  | _ => false

/-- Whether an operation may break off behind a write. -/
def breaksOff : Operation → Bool
  | .listPop _ _ | .listTrim _ _ _ | .repair _ => true
  | _ => false

/-- What an operation without an answer of its own refuses. -/
theorem refuses_silent {action : StoreM Unit} (h : Refuses spoilt table action) :
    Refuses spoilt table (silent action) :=
  .bind_sure h fun _ => .pure Reply.done

/-- Operations that add an item refuse in front of it, or at a full count behind it.
-/
theorem refuses_addition (env : Environment) {op : Operation} {key : String}
    (hkey : op.key? = some key) (hadds : op.addsItem = true) :
    RefusesItem key table (op.perform env) := by
  cases op <;> cases hkey <;> cases hadds
  case mapSet field value =>
      exact .map _ (refuses_counted fun _ _ hframe =>
        refuses_putItem (.counted .map) hframe (List.prefix_append _ _) value)
  case setAdd member =>
      exact .map _ (refuses_counted fun _ _ hframe =>
        refuses_putNewItem (.counted .set) hframe (List.prefix_append _ _) .null)
  case bloomAdd item =>
      exact .map _ (refuses_bloom fun handle _ hframe =>
        refuses_putItem (.of_bloom hframe) hframe (List.prefix_append _ _) _)
  case seriesAdd instant value =>
      exact .map _ (refuses_counted fun _ _ hframe => Series.refuses_point fun _ =>
        refuses_putItem (.counted .series) hframe (List.prefix_append _ _) value)

/-- Changes that neither add an item nor make a new value of an old one. -/
theorem refuses_change (env : Environment) {op : Operation} {key : String}
    (hkey : op.key? = some key) (hschedules : op.schedules = false) (hreads : op.reads = false)
    (hupdates : op.updates = false) (hadds : op.addsItem = false)
    (hbroken : op.breaksOff = true → ∀ cause after, spoilt (.aborted cause) after) :
    Refuses spoilt table (op.perform env) := by
  cases op <;> cases hkey <;> cases hschedules <;> cases hreads <;> cases hupdates <;> cases hadds
  case set value => exact refuses_silent (Store.refuses_set key value)
  case delete => exact refuses_silent (refuses_delete key)
  case clearExpiry => exact refuses_silent (Expiry.refuses_clear key)
  case repair => exact .map _ (Repair.refuses_repair key (hbroken rfl))
  case listCreate => exact refuses_silent (refuses_create key _)
  case listPush side value => exact .map _ (Deque.refuses_push key value side)
  case listPop side => exact .map _ (Deque.refuses_pop key side (hbroken rfl))
  case listSet position value => exact refuses_silent (Deque.refuses_set key position value)
  case listTrim start stop =>
      exact refuses_silent (Deque.refuses_trim key start stop (hbroken rfl))
  case listDelete => exact refuses_silent (refuses_deleteAs key .list)
  case mapCreate => exact refuses_silent (refuses_create key _)
  case mapRemove field =>
      exact .map _ (refuses_counted fun _ _ hframe => refuses_takeItem (.counted .map) hframe _)
  case mapDelete => exact refuses_silent (refuses_deleteAs key .map)
  case setCreate => exact refuses_silent (refuses_create key _)
  case setRemove member =>
      exact .map _ (refuses_counted fun _ _ hframe => refuses_takeItem (.counted .set) hframe _)
  case setDelete => exact refuses_silent (refuses_deleteAs key .set)
  case bloomCreate slots salt =>
      exact refuses_silent (.guard fun _ => refuses_create key _)
  case bloomClear => exact refuses_silent (Membership.refuses_clear key)
  case bloomDelete => exact refuses_silent (refuses_deleteAs key .bloom)
  case seriesCreate => exact refuses_silent (refuses_create key _)
  case seriesRemove instant =>
      exact .map _ (refuses_counted fun _ _ hframe => Series.refuses_point fun _ =>
        refuses_takeItem (.counted .series) hframe _)
  case seriesDelete => exact refuses_silent (refuses_deleteAs key .series)
  case setEncrypted value algorithm secret =>
      exact refuses_silent (Secret.refuses_setEncrypted _ key value algorithm secret)
  case setPassword password algorithm cost =>
      exact refuses_silent (Secret.refuses_setPassword _ key password algorithm cost)

/-- All other operations refuse in front of their writes. -/
theorem refuses_perform (env : Environment) {op : Operation} {key : String}
    (hkey : op.key? = some key) (hschedules : op.schedules = false) (hadds : op.addsItem = false)
    (hbroken : op.breaksOff = true → ∀ cause after, spoilt (.aborted cause) after) :
    Refuses spoilt table (op.perform env) := by
  cases hreads : op.reads with
  | true => exact .of_readOnly (readOnly_perform env hreads)
  | false =>
      cases hupdates : op.updates with
      | true =>
          rcases perform_of_updates env hkey hupdates with ⟨e, heq⟩ | ⟨α, next, reply, _, heq⟩
          · exact heq ▸ .throw e
          · exact heq ▸ .map reply (refuses_update key next)
      | false => exact refuses_change env hkey hschedules hreads hupdates hadds hbroken

/-- An operation at a key, other than setting an expiry, that fails without a
failing call leaves every row as it was, whatever the store holds.  The exception
is an item that is new in a structure whose count is the greatest one: the item
is written, and only then the operation is refused.  What breaks off has not failed;
only popping, trimming and repairing may break off behind a write. -/
theorem refusal_changes_nothing (table : Table) (env : Environment) {op : Operation} {key : String}
    (hkey : op.key? = some key) (hschedules : op.schedules = false) :
    ∃ outcome after, (op.perform env).run (.ofTable table) = (outcome, .ofTable after) ∧
      ∀ e, outcome = .error e →
        after = table ∨ (op.addsItem = true ∧ e = .overflow ∧ Overfull key table after) ∨
          (op.breaksOff = true ∧ ∃ cause, e = .aborted cause) := by
  cases hadds : op.addsItem with
  | true =>
      obtain ⟨outcome, after, hrun, hrefuses⟩ := @refuses_addition table env op key hkey hadds
      exact ⟨outcome, after, hrun, fun e heq =>
        (hrefuses e heq).imp_right fun h => Or.inl ⟨rfl, h⟩⟩
  | false =>
      obtain ⟨outcome, after, hrun, hrefuses⟩ :=
        @refuses_perform (fun e _ => op.breaksOff = true ∧ ∃ cause, e = .aborted cause) table env
          op key hkey hschedules hadds fun hbreaks cause _ => ⟨hbreaks, cause, rfl⟩
      exact ⟨outcome, after, hrun, fun e heq => (hrefuses e heq).imp_right Or.inr⟩

/-- A list whose last index is the greatest one takes no further item there. -/
theorem refusal_changes_nothing_list :
    let metadata : Bytes := 0x10 :: [255, 255, 255, 255, 255, 255, 255, 127,
      255, 255, 255, 255, 255, 255, 255, 127, 1, 0, 0, 0, 0, 0, 0, 0, 0, 0, 0, 0, 0, 0, 0, 0]
    let table := (Table.empty.insert (Key.ofText "key") metadata).insert
      (Key.listItem "key" 9223372036854775807) [1]
    let env : Environment := ⟨.ofInt64 0, ⟨60, by decide, by decide⟩, .none⟩
    let op : Operation := .listPush "key" .right .null
    op.key? = some "key" ∧ op.schedules = false ∧
      ((op.perform env).run (.ofTable table)).1 = .error .overflow ∧
      ∃ outcome after, (op.perform env).run (.ofTable table) = (outcome, .ofTable after) ∧
        ∀ e, outcome = .error e →
          after = table ∨ (op.addsItem = true ∧ e = .overflow ∧ Overfull "key" table after) ∨
            (op.breaksOff = true ∧ ∃ cause, e = .aborted cause) := by
  intro metadata table env op
  exact ⟨rfl, rfl, by decide +kernel, refusal_changes_nothing table env rfl rfl⟩

/-- A map whose count is the greatest one keeps the field that was refused. -/
theorem refusal_leaves_field :
    let metadata : Bytes := 0x11 :: [255, 255, 255, 255, 255, 255, 255, 255,
      0, 0, 0, 0, 0, 0, 0, 0]
    let table := Table.empty.insert (Key.ofText "key") metadata
    let env : Environment := ⟨.ofInt64 0, ⟨60, by decide, by decide⟩, .none⟩
    let refused := ((Operation.mapSet "key" "f" .null).perform env).run (.ofTable table)
    table.HasFrame (Key.ofText "key") ⟨.map 18446744073709551615, none⟩ ∧
      refused.1 = .error .overflow ∧
      table.get? (Key.item "key" .map (Key.ofText "f")) = none ∧
      refused.2.table.HasFrame (Key.item "key" .map (Key.ofText "f")) ⟨.null, none⟩ := by
  intro metadata table env refused
  exact ⟨by decide +kernel, by decide +kernel, by decide +kernel, by decide +kernel⟩

end Operation
end StructuredStore
