import StructuredStore.Proofs.Expiry.Namespace
import StructuredStore.Proofs.Store.Locality

/-!
# Expiries that persist

The expiry of a key shares a frame with its value, or with the metadata of its
structure, and most operations write that frame anew.  Those that neither
replace nor remove the value carry the expiry over, wherever they are broken
off; operations on other keys and sweeps before the expiry leave the frame
alone.

Main definitions:

- `Expiry.answer`: what asking for the expiry of a key answers.
- `Expiry.Stamped`: whether a key still has its expiry.
- `Operation.Spares`: operations that have no business with an expiry.

Main results:

- `Stamped.maintains_rewrite`: the frame is written with another value.
- `Stamped.endures_own`, `Stamped.maintains_other`, `Stamped.keptBySweep`:
  operations on the key and on others, and sweeps.
- `Session.perform_expiry_persists`, `Session.run_expiry_persists`: expiries in one
  operation and in a run.
-/

namespace StructuredStore

open Engine Store

/-- Whether an operation replaces the value at its key, and with it the
expiry. -/
def Operation.replaces : Operation → Bool
  | .set _ _ | .setEncrypted _ _ _ _ | .setPassword _ _ _ _ => true
  | _ => false

namespace Expiry

/-! ## What a key answers -/

/-- What asking for the expiry of a key answers if no call fails. -/
def answer (table : Table) (key : String) : Except StoreError (Option Instant) :=
  ((get key).run (ofTable table)).1

variable {table after : Table} {key : String} {frame : Frame} {value : Value}
  {expireAt : Option Instant}

/-- A key that is there answers the expiry of its frame. -/
theorem answer_of_hasFrame (h : table.HasFrame (Key.ofText key) frame) :
    answer table key = .ok frame.expireAt := by
  rw [answer, get, run_bind_ok (run_readExisting h)]
  rfl

/-- Only the row of the key matters. -/
theorem answer_congr (h : after.get? (Key.ofText key) = table.get? (Key.ofText key)) :
    answer after key = answer table key := by
  have hlocal : Local (· = Key.ofText key) (get key) :=
    .bind (local_readExisting rfl) fun _ => .pure _
  obtain ⟨outcome, hafter, htable⟩ := hlocal after table fun _ heq => heq ▸ h
  rw [answer, answer, hafter, htable]

/-- What is answered is the expiry in the frame. -/
theorem expiryOf_of_answer (h : answer table key = .ok expireAt) :
    table.expiryOf key = expireAt := by
  have hget : Finds table (get key) fun found => table.expiryOf key = found :=
    (finds_readExisting table _).bind fun _ hframe => .pure hframe.expiryOf_eq
  exact (hget.ends none).2 _ h

/-! ## Keys that have their expiry -/

/-- Whether the frame of a key holds an expiry, and the key answers as described
as long as the frames that are written can be read. -/
structure Stamped (readable : Prop) (reply : Except StoreError (Option Instant)) (key : String)
    (instant : Instant) (table : Table) : Prop where
  expiry : table.expiryOf key = some instant
  answers : readable → answer table key = reply

/-- What is known of a frame that was read at such a key. -/
structure Carried (readable : Prop) (reply : Except StoreError (Option Instant))
    (instant : Instant) (value : Value) (expireAt : Option Instant) : Prop where
  expireAt_eq : expireAt = some instant
  stored : Frame.asStored expireAt = expireAt
  reply_eq : readable → reply = .ok (some instant)
  storable : value.Storable

namespace Stamped

variable {α β : Type} {readable : Prop} {reply : Except StoreError (Option Instant)}
  {instant : Instant} {keys : Bytes → Prop}

theorem congr (h : Stamped readable reply key instant table)
    (heq : after.get? (Key.ofText key) = table.get? (Key.ofText key)) :
    Stamped readable reply key instant after :=
  ⟨(Table.expiryOf_congr heq).trans h.expiry, fun hread =>
    (answer_congr heq).trans (h.answers hread)⟩

/-- A key that expires is there. -/
theorem get?_ne_none (h : Stamped readable reply key instant table) :
    table.get? (Key.ofText key) ≠ none := by
  intro hnone
  have hexpiry := h.expiry
  rw [Table.expiryOf_absent hnone] at hexpiry
  cases hexpiry

/-- What is read at such a key carries its expiry, in a frame that can be written
again. -/
theorem carried (h : Stamped readable reply key instant table)
    (hframe : table.HasFrame (Key.ofText key) ⟨value, expireAt⟩) :
    Carried readable reply instant value expireAt := by
  have hexpiry : expireAt = some instant := hframe.expiryOf_eq.symm.trans h.expiry
  refine ⟨hexpiry, hframe.asStored_expireAt, fun hread => ?_, hframe.storable⟩
  rw [← h.answers hread, answer_of_hasFrame hframe, hexpiry]

/-! ### Steps -/

/-- What does not touch the row of the key leaves its expiry alone. -/
theorem maintains_off {action : StoreM α} (haction : Confined keys action)
    (hkey : ¬ keys (Key.ofText key)) : Maintains (Stamped readable reply key instant) action :=
  fun table h => (Endures.of_confined haction table).conseq fun _ _ hagree =>
    h.congr (hagree _ hkey)

/-- Items are written beside the frame of the key, -/
theorem maintains_write_item {physical : Bytes} (hne : physical ≠ Key.ofText key) (item : Value) :
    Maintains (Stamped readable reply key instant) (write physical item none) :=
  maintains_off (@confined_write (· ≠ Key.ofText key) physical hne item none) fun h => h rfl

/-- and removed beside it. -/
theorem maintains_delete_item {physical : Bytes} (hne : physical ≠ Key.ofText key) :
    Maintains (Stamped readable reply key instant) (Engine.delete physical) :=
  maintains_off (@Confined.delete (· ≠ Key.ofText key) physical hne) fun h => h rfl

/-- A step behind one that reads the frame of the key. -/
theorem maintains_frame_bind {first : StoreM α} {next : α → StoreM β} {value : α → Value}
    {expireAt : α → Option Instant}
    (hfirst : ∀ table, Finds table first fun a =>
      table.HasFrame (Key.ofText key) ⟨value a, expireAt a⟩)
    (hnext : ∀ a, Carried readable reply instant (value a) (expireAt a) →
      Maintains (Stamped readable reply key instant) (next a)) :
    Maintains (Stamped readable reply key instant) (first >>= next) :=
  fun table h => (hfirst table).before (fun _ => h) fun a hframe =>
    hnext a (h.carried hframe) table h

/-- A step behind one that only looks and changes nothing. -/
theorem maintains_finds_bind {first : StoreM α} {next : α → StoreM β} {found : α → Prop}
    (hfirst : ∀ table, Finds table first found)
    (hnext : ∀ a, found a → Maintains (Stamped readable reply key instant) (next a)) :
    Maintains (Stamped readable reply key instant) (first >>= next) :=
  fun table h => (hfirst table).before (fun _ => h) fun a ha => hnext a ha table h

/-- The frame is written with another value and the expiry that it had. -/
theorem maintains_rewrite {next : Value} (h : Carried readable reply instant value expireAt)
    (hnext : readable → next.Storable) :
    Maintains (Stamped readable reply key instant) (write (Key.ofText key) next expireAt) := by
  refine fun table hstamped => endures_write (fun _ => hstamped) fun bytes hencode _ => ⟨?_, ?_⟩
  · rw [Table.expiryOf_insert table key hencode, if_pos rfl, h.stored, h.expireAt_eq]
  · intro hread
    rw [answer_of_hasFrame (.insert table _ hencode (hnext hread) h.stored), h.reply_eq hread,
      h.expireAt_eq]

/-! ### Structures that count their items -/

section Counted

variable {marker : Key.Marker} {metadata : UInt64 → Value} {physical : Bytes}
  (h : Carried readable reply instant value expireAt)
  (hmetadata : ∀ count, (metadata count).Storable)

include h hmetadata

/-- The metadata is written behind an item, with one item more. -/
theorem maintains_record (count : UInt64) :
    Maintains (Stamped readable reply key instant)
      (do
        let count ← increment count
        write (Key.ofText key) (metadata count) expireAt
        return count) :=
  .bind (.of_readOnly (confined_increment count)) fun next =>
    .bind (maintains_rewrite h fun _ => hmetadata next) fun _ => .pure _

variable (hphysical : Key.itemStem key marker <+: physical) (count : UInt64)

include hphysical

/-- An item is put and counted: both writes keep the expiry. -/
theorem maintains_putItem (item : Value) :
    Maintains (Stamped readable reply key instant)
      (do
        let known := (← Engine.get physical).isSome
        write physical item none
        if known then return count
        let count ← increment count
        write (Key.ofText key) (metadata count) expireAt
        return count) :=
  .bind (.of_readOnly (.get physical)) fun _ =>
    .bind (maintains_write_item (Tallied.ne_ofText hphysical) item) fun _ =>
      .ite (.pure _) (maintains_record h hmetadata count)

/-- So do those for an item that is new, -/
theorem maintains_putNewItem (item : Value) :
    Maintains (Stamped readable reply key instant)
      (do
        if (← Engine.get physical).isSome then return count
        write physical item none
        let count ← increment count
        write (Key.ofText key) (metadata count) expireAt
        return count) :=
  .bind (.of_readOnly (.get physical)) fun _ => .ite (.pure _)
    (.bind (maintains_write_item (Tallied.ne_ofText hphysical) item) fun _ =>
      maintains_record h hmetadata count)

/-- and those for one that is taken. -/
theorem maintains_takeItem :
    Maintains (Stamped readable reply key instant)
      (do
        if (← Engine.get physical).isNone then return count
        Engine.delete physical
        write (Key.ofText key) (metadata (decrement count)) expireAt
        return decrement count) :=
  .bind (.of_readOnly (.get physical)) fun _ => .ite (.pure _)
    (.bind (maintains_delete_item (Tallied.ne_ofText hphysical)) fun _ =>
      .bind (maintains_rewrite h fun _ => hmetadata _) fun _ => .pure _)

end Counted

/-- Metadata that counts items can always be stored. -/
theorem storable_metadata (counted : Counted) (count : UInt64) :
    (counted.metadata count).Storable := by
  cases counted <;> trivial

/-- Writing a field keeps the expiry of the map. -/
theorem maintains_mapSet (field : String) (item : Value) :
    Maintains (Stamped readable reply key instant) (FieldMap.set key field item) :=
  maintains_frame_bind (fun table => finds_readCount table key .map) fun found h =>
    maintains_putItem h (storable_metadata .map) (List.prefix_append _ _) found.1 item

/-- So does removing one. -/
theorem maintains_mapRemove (field : String) :
    Maintains (Stamped readable reply key instant) (FieldMap.remove key field) :=
  maintains_frame_bind (fun table => finds_readCount table key .map) fun found h =>
    maintains_takeItem h (storable_metadata .map) (List.prefix_append _ _) found.1

/-- Adding a member keeps the expiry of the set. -/
theorem maintains_setAdd (member : String) :
    Maintains (Stamped readable reply key instant) (MemberSet.add key member) :=
  maintains_frame_bind (fun table => finds_readCount table key .set) fun found h =>
    maintains_putNewItem h (storable_metadata .set) (List.prefix_append _ _) found.1 .null

/-- So does removing one. -/
theorem maintains_setRemove (member : String) :
    Maintains (Stamped readable reply key instant) (MemberSet.remove key member) :=
  maintains_frame_bind (fun table => finds_readCount table key .set) fun found h =>
    maintains_takeItem h (storable_metadata .set) (List.prefix_append _ _) found.1

/-- Adding a point keeps the expiry of the series, also if the point has no key. -/
theorem maintains_seriesAdd (point : Instant) (item : Value) :
    Maintains (Stamped readable reply key instant) (Series.add key point item) := by
  refine maintains_frame_bind (fun table => finds_readCount table key .series) fun found h => ?_
  cases hpoint : Key.instantSelector point with
  | error fault =>
      rw [Series.pointKey_error key hpoint]
      exact .of_readOnly (.throw _)
  | ok selector =>
      dsimp only
      rw [Series.pointKey_ok key hpoint, pure_bind]
      exact maintains_putItem h (storable_metadata .series) (List.prefix_append _ _) found.1 item

/-- So does removing one. -/
theorem maintains_seriesRemove (point : Instant) :
    Maintains (Stamped readable reply key instant) (Series.remove key point) := by
  refine maintains_frame_bind (fun table => finds_readCount table key .series) fun found h => ?_
  cases hpoint : Key.instantSelector point with
  | error fault =>
      rw [Series.pointKey_error key hpoint]
      exact .of_readOnly (.throw _)
  | ok selector =>
      dsimp only
      rw [Series.pointKey_ok key hpoint, pure_bind]
      exact maintains_takeItem h (storable_metadata .series) (List.prefix_append _ _) found.1

/-- Adding an item keeps the expiry of the filter. -/
theorem maintains_bloomAdd (item : String) :
    Maintains (Stamped readable reply key instant) (Membership.add key item) :=
  maintains_frame_bind (fun table => Membership.finds_readHandle table key) fun found h =>
    @maintains_putItem key _ found.2 readable reply instant .bloom
      (fun count => .bloom { found.1 with count }) _ h (fun _ => trivial) (List.prefix_append _ _)
      found.1.count _

/-- So does clearing it. -/
theorem maintains_bloomClear :
    Maintains (Stamped readable reply key instant) (Membership.clear key) :=
  maintains_frame_bind (fun table => Membership.finds_readHandle table key) fun _ h =>
    .bind (maintains_off (confined_removeItems fun _ => id) (Key.not_itemStem_prefix_ofText key _))
      fun _ => maintains_rewrite h fun _ => trivial

/-! ### Values -/

/-- What is there is not created. -/
theorem maintains_create (metadata : Value) :
    Maintains (Stamped readable reply key instant) (create key metadata) := by
  refine .bind (.of_readOnly (confined_requireUnreserved key)) fun _ table h => ?_
  refine (Finds.get table _).before (fun _ => h) ?_
  rintro _ rfl
  rw [if_pos (Option.isSome_iff_ne_none.mpr h.get?_ne_none)]
  exact .throw h

/-- An updated value keeps the expiry of the old one. -/
theorem maintains_update {next : Option Value → Except StoreError (Value × α)}
    (hnext : ∀ old value answer, next old = .ok (value, answer) → value.Storable) :
    Maintains (Stamped readable reply key instant) (update key next) := by
  intro table h
  refine (finds_read table _).before (fun _ => h) fun found hfound => ?_
  cases found with
  | none => exact absurd hfound h.get?_ne_none
  | some frame =>
      split
      · exact .throw h
      · rename_i value answer heq
        have hcarried : Carried readable reply instant frame.value frame.expireAt :=
          h.carried hfound
        exact Maintains.bind (maintains_rewrite hcarried fun _ => hnext _ _ _ heq)
          (fun _ => .pure _) table h

/-- All operations that update a value keep its expiry. -/
theorem maintains_updates (env : Environment) {op : Operation} (hkey : op.key? = some key)
    (hupdates : op.updates = true) :
    Maintains (Stamped readable reply key instant) (op.perform env) := by
  rcases op.perform_of_updates env hkey hupdates with ⟨e, heq⟩ | ⟨α, next, answer, hnext, heq⟩
  · rw [heq]
    exact .of_readOnly (.throw e)
  · rw [heq]
    exact .map _ (maintains_update fun old value answer hanswer => (hnext _ _ _ hanswer).2.1)

/-! ### Lists -/

/-- A push keeps the expiry of the list. -/
theorem maintains_push (side : Deque.End) (item : Value) :
    Maintains (Stamped readable reply key instant) (Deque.push key item side) := by
  refine maintains_frame_bind (fun table => Deque.finds_readHandle table key) fun found h => ?_
  intro table hstamped
  refine (Deque.finds_grow table found.1 side).before (fun _ => hstamped) ?_
  rintro _ ⟨hroom, rfl⟩
  have hitem : Maintains (Stamped readable reply key instant)
      (Deque.writeItem key (Deque.newIndex found.1 side) item) :=
    maintains_write_item (Deque.listItem_ne_ofText key _) item
  refine (Maintains.bind hitem fun _ => ?_) table hstamped
  exact .bind (maintains_rewrite h fun _ => Deque.storable_grown h.storable hroom) fun _ => .pure _

/-- So does a pop, also where it breaks off behind the removal. -/
theorem maintains_pop (side : Deque.End) :
    Maintains (Stamped readable reply key instant) (Deque.pop key side) :=
  maintains_frame_bind (fun table => Deque.finds_readHandle table key) fun _ h =>
    .guard fun hlength => .bind (.of_readOnly (Deque.confined_requireItem key _)) fun _ =>
      .bind (maintains_delete_item (Deque.listItem_ne_ofText key _)) fun _ =>
        maintains_finds_bind (fun table => Deque.finds_shrink table _ side) fun _ hnext =>
          .bind (maintains_rewrite h fun _ =>
            hnext ▸ Deque.storable_shrunk side h.storable hlength) fun _ => .pure _

/-- An item is replaced beside the frame of the list. -/
theorem maintains_listSet (position : Int64) (item : Value) :
    Maintains (Stamped readable reply key instant) (Deque.set key position item) :=
  .bind (.of_readOnly (Deque.confined_readHandle key)) fun found =>
    .bind (.of_readOnly (Deque.confined_locate found.1 position)) fun index =>
      maintains_write_item (Deque.listItem_ne_ofText key index) item

/-- Trimming keeps the expiry of the list, wherever it breaks off. -/
theorem maintains_trim (start stop : Int64) :
    Maintains (Stamped readable reply key instant) (Deque.trim key start stop) := by
  have hremove : ∀ first count,
      Maintains (Stamped readable reply key instant) (removeIndices key first count) :=
    fun first count => maintains_off (@confined_removeIndices (· ≠ Key.ofText key) key
      (Deque.listItem_ne_ofText key) first count) fun hne => hne rfl
  refine maintains_frame_bind (fun table => Deque.finds_readHandle table key) fun found h =>
    .ite (.pure _) ?_
  cases hspan : Deque.span? start.toInt stop.toInt found.1.length.toInt with
  | none =>
      exact .bind (hremove _ _) fun _ => maintains_rewrite h fun _ => Or.inl rfl
  | some span =>
      obtain ⟨first, last⟩ := span
      obtain ⟨hlow, hle, hhigh⟩ := Deque.span?_eq_some hspan
      have hlength : found.1.length.toInt ≤ 9223372036854775807 := found.1.length.toInt_le
      refine .bind (.of_readOnly (Deque.confined_inRange _ _)) fun head => ?_
      refine .bind (.of_readOnly (Deque.confined_inRange _ _)) fun tail => ?_
      refine .bind (hremove _ _) fun _ => .bind (.of_readOnly (Deque.confined_inRange _ _)) fun _ =>
        .bind (hremove _ _) fun _ => maintains_rewrite h fun _ => Or.inr ?_
      rw [Int64.toInt_ofInt_of_le (by omega) (by omega)]
      omega

/-! ### Repair -/

/-- A recount writes the metadata with the expiry that it read. -/
theorem maintains_recount {marker : Key.Marker} {metadata : UInt64 → Value}
    (h : Carried readable reply instant value expireAt)
    (hmetadata : ∀ count, (metadata count).Storable) (before : UInt64) :
    Maintains (Stamped readable reply key instant)
      (Repair.recount key marker before metadata expireAt) :=
  .bind (.of_readOnly (confined_countItems key marker)) fun _ =>
    .ite (.bind (maintains_rewrite h fun _ => hmetadata _) fun _ => .pure _) (.pure _)

/-- The metadata of a repaired list can be read if it counts its items. -/
theorem storable_consecutiveHandle (first : Int64) {count : Nat} (hpos : 0 < count)
    (hcount : count < 9223372036854775808) :
    (Value.list (Repair.consecutiveHandle first count)).Storable := by
  right
  have hlength : (Int64.ofNat count).toInt = count := Int64.toInt_ofNat_of_lt hcount
  rw [Repair.consecutiveHandle, hlength]
  omega

/-- The metadata of a repaired list is written if it is another one. -/
theorem maintains_settle {handle next : ListHandle}
    (h : Carried readable reply instant value expireAt)
    (hnext : readable → (Value.list next).Storable) (report : Repair.Report) :
    Maintains (Stamped readable reply key instant)
      (do
        if next ≠ handle then write (Key.ofText key) (.list next) expireAt
        return report) :=
  .ite (.bind (maintains_rewrite h hnext) fun _ => .pure _) (.pure _)

/-- The holes of a list are closed beside its frame, and its metadata keeps the
expiry. -/
theorem endures_repairList (h : Stamped readable reply key instant table) {handle : ListHandle}
    (hcarried : Carried readable reply instant (.list handle) expireAt)
    (hroom : readable → table.countUnder (Key.itemStem key .list) < 9223372036854775808) :
    Endures table (Repair.repairList key handle expireAt) fun _ after =>
      Stamped readable reply key instant after := by
  refine (Finds.scan table _).before (fun _ => h) ?_
  rintro _ rfl
  refine (finds_lift table _).before (fun _ => h) fun present hpresent => ?_
  have hlength := (Repair.rows_of_indices
    (fun row hrow => ((Table.mem_rowsUnder table _ row).mp hrow).2) hpresent).1
  rw [List.length_map] at hlength
  cases present with
  | nil => exact maintains_settle hcarried (fun _ => Or.inl rfl) _ table h
  | cons first rest =>
      have hnext : readable →
          (Value.list (Repair.consecutiveHandle first (first :: rest).length)).Storable := by
        intro hread
        refine storable_consecutiveHandle first (Nat.succ_pos _) ?_
        rw [hlength]
        exact hroom hread
      have hclose : Maintains (Stamped readable reply key instant)
          (Repair.closeHoles key first (first :: rest)) :=
        maintains_off (@Repair.confined_closeHoles (· ≠ Key.ofText key) key
          (Deque.listItem_ne_ofText key) first (first :: rest)) fun hne => hne rfl
      refine Maintains.bind hclose (fun moved => ?_) table h
      refine maintains_finds_bind
        (fun table => Repair.finds_handleFrom table first (first :: rest).length) ?_
      rintro _ rfl
      exact maintains_settle hcarried hnext _

/-- A repair keeps the expiry, of a list as long as its items can be counted. -/
theorem endures_repair (h : Stamped readable reply key instant table)
    (hroom : readable → table.countUnder (Key.itemStem key .list) < 9223372036854775808) :
    Endures table (Repair.repair key) fun _ after => Stamped readable reply key instant after := by
  refine (finds_readExisting table _).before (fun _ => h) ?_
  rintro ⟨value, expireAt⟩ hframe
  have hcarried := h.carried hframe
  cases value with
  | list handle => exact h.endures_repairList hcarried hroom
  | map count => exact maintains_recount hcarried (storable_metadata .map) _ table h
  | set count => exact maintains_recount hcarried (storable_metadata .set) _ table h
  | series count => exact maintains_recount hcarried (storable_metadata .series) _ table h
  | bloom handle =>
      have hmetadata : ∀ count, (Value.bloom { handle with count }).Storable := fun _ => trivial
      exact maintains_recount hcarried hmetadata _ table h
  | _ => exact .pure h

/-! ### Operations on the key -/

/-- An operation on the key that neither replaces nor removes its value and
neither sets nor clears its expiry. -/
theorem endures_own (h : Stamped readable reply key instant table) (env : Environment)
    {op : Operation} (hkey : op.key? = some key) (hreplaces : op.replaces = false)
    (hdeletes : op.deletes = false) (hschedules : op.schedules = false)
    (hclears : op ≠ .clearExpiry key)
    (hroom : op = .repair key → readable →
      table.countUnder (Key.itemStem key .list) < 9223372036854775808) :
    Endures table (op.perform env) fun _ after => Stamped readable reply key instant after := by
  refine (Decidable.em (op.reads = true)).elim
    (fun hreads => Maintains.of_readOnly (op.readOnly_perform env hreads) table h) fun hreads => ?_
  refine (Decidable.em (op.updates = true)).elim
    (fun hupdates => maintains_updates env hkey hupdates table h) fun hupdates => ?_
  have hsilent : ∀ {action : StoreM Unit}, Maintains (Stamped readable reply key instant) action →
      Endures table (Operation.silent action) fun _ after =>
        Stamped readable reply key instant after :=
    fun haction => Maintains.bind haction (fun _ => .pure _) table h
  have hanswer : ∀ {α : Type} (f : α → Reply) {action : StoreM α},
      Maintains (Stamped readable reply key instant) action →
      Endures table (f <$> action) fun _ after => Stamped readable reply key instant after :=
    fun f _ haction => haction.map f table h
  cases op <;> cases hkey <;> cases hreplaces <;> cases hdeletes <;> cases hschedules
  all_goals try exact absurd rfl hreads
  all_goals try exact absurd rfl hupdates
  case clearExpiry => exact absurd rfl hclears
  case repair => exact .map _ (h.endures_repair (hroom rfl))
  case listCreate => exact hsilent (maintains_create _)
  case listPush side value => exact hanswer _ (maintains_push side value)
  case listPop side => exact hanswer _ (maintains_pop side)
  case listSet position value => exact hsilent (maintains_listSet position value)
  case listTrim start stop => exact hsilent (maintains_trim start stop)
  case mapCreate => exact hsilent (maintains_create _)
  case mapSet field value => exact hanswer _ (maintains_mapSet field value)
  case mapRemove field => exact hanswer _ (maintains_mapRemove field)
  case setCreate => exact hsilent (maintains_create _)
  case setAdd member => exact hanswer _ (maintains_setAdd member)
  case setRemove member => exact hanswer _ (maintains_setRemove member)
  case bloomCreate slots salt => exact hsilent (.guard fun _ => maintains_create _)
  case bloomAdd item => exact hanswer _ (maintains_bloomAdd item)
  case bloomClear => exact hsilent maintains_bloomClear
  case seriesCreate => exact hsilent (maintains_create _)
  case seriesAdd point value => exact hanswer _ (maintains_seriesAdd point value)
  case seriesRemove point => exact hanswer _ (maintains_seriesRemove point)

/-! ### Other keys and sweeps -/

section Elsewhere

variable (hkey : Key.ColonFree key)

include hkey

/-- An operation on another key changes nothing that the key owns. -/
theorem maintains_owned {other : String} {action : StoreM α}
    (haction : Confined (Key.Owns other) action) (hne : other ≠ key) :
    Maintains (Stamped readable reply key instant) action :=
  maintains_off haction fun howns => hne (hkey.eq_of_owns howns)

/-- A bucket may change. -/
theorem maintains_bucket {bucket : String} {action : StoreM α}
    (haction : Confined (Key.Owns bucket) action) (hbucket : Key.isReserved bucket = true) :
    Maintains (Stamped readable reply key instant) action := by
  refine maintains_owned hkey haction ?_
  rintro rfl
  cases hkey.isReserved.symm.trans hbucket

/-- An operation on another key, which may write into a bucket. -/
theorem maintains_other (env : Environment) {op : Operation} {other : String}
    (hother : op.key? = some other) (hne : other ≠ key) :
    Maintains (Stamped readable reply key instant) (op.perform env) := by
  have hsetAt : ∀ next, Maintains (Stamped readable reply key instant)
      (setAt env.width env.now other next) := fun next =>
    maintains_setAt_of (maintains_owned hkey (confined_stamp other next) hne)
      (maintains_bucket hkey (confined_enlist _ other) (Key.isReserved_bucket _)) env.now
  by_cases hschedules : op.schedules = true
  · exact op.maintains_scheduling_of env hother hschedules hsetAt
  · have hquiet : op.schedules = false := by simpa using hschedules
    exact maintains_owned hkey (op.confined_perform env hother hquiet) hne

/-- Settling a name at an instant before the expiry removes other keys only. -/
theorem maintains_settle_early {now : Instant} (hearly : now < instant) (width : BucketWidth)
    (bucket name : String) :
    Maintains (Stamped readable reply key instant) (Expiry.settle width now bucket name) := by
  by_cases hname : name = key
  · subst hname
    intro table h
    refine (finds_read table _).before (fun _ => h) fun found hfound => ?_
    cases found with
    | none => exact .pure h
    | some frame =>
        obtain ⟨value, expireAt⟩ := frame
        have hexpireAt := (h.carried hfound).expireAt_eq
        subst hexpireAt
        exact .ite (fun hdue => absurd hearly hdue) fun _ =>
          .ite (fun _ => .pure h) fun _ => .pure h
  · exact maintains_owned hkey (confined_settle width now bucket name) hname

/-- Before the expiry a sweep leaves it alone. -/
theorem keptBySweep {now : Instant} (hearly : now < instant) (width : BucketWidth) :
    KeptBySweep (Stamped readable reply key instant) width now where
  takes := fun hbucket =>
    maintains_bucket hkey (Deque.confined_takeAll _) hbucket.likeBucket.reserved
  settles := fun name _ => maintains_settle_early hkey hearly width _ name
  enlists := fun name hbucket =>
    maintains_bucket hkey (confined_enlist _ name) hbucket.likeBucket.reserved

end Elsewhere
end Stamped

/-! ## Replaced values -/

/-- A value that is set has no expiry. -/
theorem endures_set (table : Table) (key : String) (value : Value) :
    Endures table (Store.set key value) fun outcome after =>
      ∀ a, outcome = .ok a → after.expiryOf key = none := by
  have hwrite : ∀ table : Table, Endures table (write (Key.ofText key) value none)
      fun outcome after => ∀ a, outcome = .ok a → after.expiryOf key = none := by
    refine fun table => endures_write (fun _ _ heq => by cases heq) fun bytes hencode _ _ _ => ?_
    rw [Table.expiryOf_insert table key hencode, if_pos rfl, Frame.asStored_none]
  refine .ite (fun _ => .throw fun _ heq => by cases heq) fun _ => ?_
  refine .bind_last fun _ between => .bind_last fun found between => ?_
  cases found with
  | none => exact hwrite between
  | some bytes =>
      exact .bind_last fun _ between =>
        .ite (fun _ => .throw fun _ heq => by cases heq) fun _ => hwrite between

end Expiry

/-! ## Operations -/

namespace Operation

open Expiry

/-- What succeeds in replacing a value leaves none of its expiry. -/
theorem endures_replaces (env : Environment) {op : Operation} {key : String} (table : Table)
    (hkey : op.key? = some key) (hreplaces : op.replaces = true) :
    Endures table (op.perform env) fun outcome after =>
      ∀ reply, outcome = .ok reply → after.expiryOf key = none := by
  have hsilent : ∀ {action : StoreM Unit}, (Endures table action fun outcome after =>
      ∀ a, outcome = .ok a → after.expiryOf key = none) →
      Endures table (silent action) fun outcome after =>
        ∀ reply, outcome = .ok reply → after.expiryOf key = none :=
    fun haction => .bind haction (fun _ _ _ _ heq => by cases heq)
      fun _ _ hdone => .pure fun _ _ => hdone _ rfl
  cases op <;> cases hkey <;> cases hreplaces
  case set value => exact hsilent (endures_set table key value)
  case setEncrypted value algorithm secret =>
    exact hsilent (.bind_last fun _ _ => .bind_last fun _ _ => .bind_last fun _ between =>
      endures_set between key _)
  case setPassword password algorithm cost =>
    exact hsilent (.bind_last fun _ _ => .bind_last fun _ between => endures_set between key _)

/-- Whether an operation at an instant has no business with an expiry of a key:
it works on the key, but neither replaces nor removes its value and neither sets
nor clears the expiry; it works on another key; or it sweeps before the
expiry. -/
inductive Spares (now : Instant) (key : String) (instant : Instant) : Operation → Prop where
  | own {op : Operation} (hkey : op.key? = some key) (hreplaces : op.replaces = false)
      (hdeletes : op.deletes = false) (hschedules : op.schedules = false)
      (hclears : op ≠ .clearExpiry key) : Spares now key instant op
  | other {op : Operation} {other : String} (hother : op.key? = some other) (hne : other ≠ key) :
      Spares now key instant op
  | sweep {swept : Instant} (hearly : swept < instant) : Spares now key instant (.sweep swept)
  | sweepNow (hearly : now < instant) : Spares now key instant .sweepNow
  | flush : Spares now key instant .flush

/-- Such an operation keeps the expiry, whichever calls fail. -/
theorem Spares.endures {env : Environment} {key : String} {instant : Instant} {op : Operation}
    (hspares : op.Spares env.now key instant) (hkey : Key.ColonFree key) {readable : Prop}
    {reply : Except StoreError (Option Instant)} {table : Table}
    (h : Stamped readable reply key instant table)
    (hroom : op = .repair key → readable →
      table.countUnder (Key.itemStem key .list) < 9223372036854775808) :
    Endures table (op.perform env) fun _ after => Stamped readable reply key instant after := by
  cases hspares with
  | own hown hreplaces hdeletes hschedules hclears =>
      exact h.endures_own env hown hreplaces hdeletes hschedules hclears hroom
  | other hother hne => exact Stamped.maintains_other hkey env hother hne table h
  | sweep hearly =>
      exact Maintains.map _ (Stamped.keptBySweep hkey hearly env.width).sweep table h
  | sweepNow hearly =>
      exact Maintains.map _ (Stamped.keptBySweep hkey hearly env.width).sweep table h
  | flush => exact Maintains.bind (.of_readOnly .flush) (fun _ => .pure _) table h

end Operation

/-! ## Sessions -/

namespace Session

open Expiry

/-- Whatever lies in the store and whichever calls fail, an expiry of a key
without colon survives every operation but those that are about it.  Asking for
it answers the same before and after; a repair of a list leaves metadata that
can be read if its items can be counted.  What succeeds in replacing the value
leaves no expiry. -/
theorem perform_expiry_persists (session : Session) {key : String} (hkey : Key.ColonFree key)
    {instant : Instant} (hexpiry : session.engine.table.expiryOf key = some instant)
    (op : Operation) :
    let table := session.engine.table
    let after := (session.perform op).2.engine.table
    (op.Spares session.clock.now key instant →
      after.expiryOf key = some instant ∧
        ((op = .repair key →
            table.countUnder (Key.itemStem key .list) < 9223372036854775808) →
          answer after key = answer table key)) ∧
      (op.key? = some key → op.replaces = true → ∀ reply, (session.perform op).1 = .ok reply →
        after.expiryOf key = none ∧ ∀ instant, answer after key ≠ .ok (some instant)) := by
  intro table after
  constructor
  · intro hspares
    have h : Stamped (op = .repair key →
        table.countUnder (Key.itemStem key .list) < 9223372036854775808)
        (answer table key) key instant table := ⟨hexpiry, fun _ => rfl⟩
    have hafter := of_endures (hspares.endures hkey h fun hop hroom => hroom hop)
    exact ⟨hafter.expiry, hafter.answers⟩
  · intro hop hreplaces reply hreply
    have hnone := of_endures (op.endures_replaces session.environment table hop hreplaces)
      reply hreply
    refine ⟨hnone, fun other hanswer => ?_⟩
    rw [expiryOf_of_answer hanswer] at hnone
    cases hnone

/-- A number that expires is increased, or swept too early, or replaced. -/
theorem perform_expiry_persists_number :
    let instant : Instant := .ofInt64 90000000000
    let session := ((⟨.ofTable .empty, ⟨0⟩, ⟨60, by decide, by decide⟩, .none⟩ : Session).run
      [.operation (.set "k" (.int 1)), .operation (.expireAt "k" instant)]).2
    let early : Operation := .sweep (.ofInt64 80000000000)
    Key.ColonFree "k" ∧ session.engine.table.expiryOf "k" = some instant ∧
      (session.perform (.increase "k" 1)).2.engine.table.expiryOf "k" = some instant ∧
      answer (session.perform early).2.engine.table "k" = .ok (some instant) ∧
      (session.perform (.set "k" .null)).1 = .ok .done ∧
      (session.perform (.set "k" .null)).2.engine.table.expiryOf "k" = none := by
  intro instant session early
  have hkey : Key.ColonFree "k" := by decide
  have hexpiry : session.engine.table.expiryOf "k" = some instant := by decide +kernel
  have hanswer : answer session.engine.table "k" = .ok (some instant) := by decide +kernel
  have hincreased := (perform_expiry_persists session hkey hexpiry (.increase "k" 1)).1
    (.own rfl rfl rfl rfl (by simp))
  have hswept := (perform_expiry_persists session hkey hexpiry early).1 (.sweep (by decide))
  have hset : (session.perform (.set "k" .null)).1 = .ok .done := by decide +kernel
  have hreplaced := (perform_expiry_persists session hkey hexpiry (.set "k" .null)).2 rfl rfl _ hset
  exact ⟨hkey, hexpiry, hincreased.1, (hswept.2 (by simp [early])).trans hanswer, hset,
    hreplaced.1⟩

/-- In a run of such operations, each at the time the clock shows then, the expiry
stays. -/
theorem run_expiry_persists (session : Session) (steps : List Step) {key : String}
    (hkey : Key.ColonFree key) {instant : Instant}
    (hexpiry : session.engine.table.expiryOf key = some instant)
    (hspares : ∀ front op back, steps = front ++ .operation op :: back →
      op.Spares (session.run front).2.clock.now key instant) :
    (session.run steps).2.engine.table.expiryOf key = some instant := by
  refine @run_keeps (fun table => table.expiryOf key = some instant) steps session hexpiry
    fun front op back hsplit hbefore => ?_
  have h : Stamped False (.ok none) key instant (session.run front).2.engine.table :=
    ⟨hbefore, False.elim⟩
  exact (of_endures ((hspares front op back hsplit).endures hkey h fun _ => False.elim)).expiry

end Session
end StructuredStore
