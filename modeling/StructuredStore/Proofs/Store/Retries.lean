import StructuredStore.Proofs.Repair.HalfWritten
import StructuredStore.Proofs.Store.Preservation
import StructuredStore.Proofs.Store.Removals

/-!
# Updates that are made again

An update of one item writes the item first and the metadata last.  A list keeps
no item that its metadata does not promise, so a push that was stopped is made
again at the same index.  Any other structure tells a new item from an old one
by looking for its row: an update that was stopped behind the row takes the item
for an old one when it is made again, and leaves the count as it was.  Repair
writes the count that is missing.

Main results:

- `Uncounted`, `Uncounted.run_repair`: an item has come or gone and the count is
  the old one.
- `Deque.restarts_push`: pushes that can be made again.
- `retries_putItem`, `retries_putNewItem`, `retries_takeItem`: the other updates.
- `Operation.update_retried`: what becomes of each of them.
-/

namespace StructuredStore

open Engine

namespace Store

variable {table left after : Table} {key : String} {marker : Key.Marker}
  {metadata : UInt64 → Value} {count next : UInt64} {expireAt : Option Instant} {physical : Bytes}

/-! ## Between an item and its count -/

/-- What an update does to one item, and the count that belongs to it. -/
inductive ItemChange (table : Table) (physical : Bytes) (count : UInt64) :
    Table → UInt64 → Prop where
  | added (habsent : table.get? physical = none) (hroom : count.toNat < 18446744073709551615)
      (item : Bytes) : ItemChange table physical count (table.insert physical item) (count + 1)
  | removed (hpresent : table.get? physical ≠ none) :
      ItemChange table physical count (table.erase physical) (decrement count)

/-- Whether an item of a structure has come or gone and the metadata still has
the old count; with the next one it would be the finished table. -/
structure Uncounted (key : String) (marker : Key.Marker) (metadata : UInt64 → Value)
    (count next : UInt64) (table left finished : Table) : Prop where
  counts : Counts marker metadata
  halves : ∃ expireAt physical contents,
    table.HasFrame (Key.ofText key) ⟨metadata count, expireAt⟩ ∧
    Key.itemStem key marker <+: physical ∧ ItemChange table physical count left next ∧
    Frame.encode ⟨metadata next, expireAt⟩ = .ok contents ∧
    finished = left.insert (Key.ofText key) contents

namespace ItemChange

theorem agreeOff (h : ItemChange table physical count left next) :
    table.AgreeOff (fun other => other = physical) left := by
  cases h with
  | added _ _ item => exact .insert (by rfl) table item
  | removed _ => exact .erase (by rfl) table

/-- The count goes with the rows. -/
theorem countUnder (h : ItemChange table physical count left next)
    (hphysical : Key.itemStem key marker <+: physical)
    (hrows : table.countUnder (Key.itemStem key marker) = count.toNat) :
    left.countUnder (Key.itemStem key marker) = next.toNat ∧ count ≠ next := by
  have hne : count.toNat ≠ next.toNat → count ≠ next := fun hnat heq => hnat (heq ▸ rfl)
  cases h with
  | added habsent hroom item =>
      rw [Table.countUnder_insert table item hphysical, if_pos habsent, hrows, toNat_add_one hroom]
      rw [toNat_add_one hroom] at hne
      exact ⟨rfl, hne (by omega)⟩
  | removed hpresent =>
      have hpos := Table.countUnder_pos hphysical hpresent
      rw [Table.countUnder_erase table hphysical, if_neg hpresent, hrows, toNat_decrement]
      rw [toNat_decrement] at hne
      exact ⟨rfl, hne (by omega)⟩

end ItemChange

namespace Uncounted

variable {finished : Table}

/-- The metadata is as it was. -/
theorem agreeOff (h : Uncounted key marker metadata count next table left finished) :
    table.AgreeOff (Key.IsItem key) left := by
  obtain ⟨_, physical, _, _, hphysical, hitem, _⟩ := h.halves
  apply hitem.agreeOff.mono
  rintro other rfl
  exact ⟨marker, hphysical⟩

/-- Repair writes the count that is missing, if the old one was right. -/
theorem run_repair (h : Uncounted key marker metadata count next table left finished)
    (hrows : table.countUnder (Key.itemStem key marker) = count.toNat) :
    ∃ report, (Repair.repair key).run (ofTable left) = (.ok report, ofTable finished) := by
  obtain ⟨expireAt, physical, contents, hframe, hphysical, hitem, hcontents, rfl⟩ := h.halves
  obtain ⟨hnext, hne⟩ := hitem.countUnder hphysical hrows
  have hself := h.agreeOff _ (Key.not_isItem_ofText key)
  exact Repair.run_repair_recounted h.counts (hframe.congr hself) hnext hcontents hne

end Uncounted

/-! ## Updates that are made again -/

/-- Whether an update, made again on what a failing call left of it, ends as it
would have ended, unless the call was the write of the count.  In that case it
answers with the old count and changes nothing. -/
def Retries (key : String) (table : Table) (action : StoreM UInt64) : Prop :=
  ∃ outcome after, Stops (fun call left => table.AgreeOff (Key.IsItem key) left ∧
    (action.run (ofTable left) = (outcome, ofTable after) ∨
      call = .set ∧ ∃ marker metadata count next,
        Uncounted key marker metadata count next table left after ∧ outcome = .ok next ∧
        action.run (ofTable left) = (.ok count, ofTable left))) table action outcome after

namespace Retries

/-- An update that writes once is stopped where it started. -/
theorem of_unchanged {action : StoreM UInt64} {outcome : Except StoreError UInt64}
    (h : Stops (fun _ left => left = table) table action outcome after) :
    Retries key table action := by
  refine ⟨outcome, after, h.mono ?_⟩
  rintro call left rfl
  exact ⟨.refl _ left, Or.inl h.run⟩

/-- An update that writes twice may also be stopped between its item and its
count. -/
theorem of_halves {action : StoreM UInt64} {contents : Bytes} (hcounts : Counts marker metadata)
    (hframe : table.HasFrame (Key.ofText key) ⟨metadata count, expireAt⟩)
    (hphysical : Key.itemStem key marker <+: physical)
    (hitem : ItemChange table physical count left next)
    (hcontents : Frame.encode ⟨metadata next, expireAt⟩ = .ok contents)
    (hstops : Stops (fun call t => t = table ∨ call = .set ∧ t = left) table action (.ok next)
      (left.insert (Key.ofText key) contents))
    (hagain : action.run (ofTable left) = (.ok count, ofTable left)) :
    Retries key table action := by
  have huncounted : Uncounted key marker metadata count next table left
      (left.insert (Key.ofText key) contents) :=
    ⟨hcounts, expireAt, physical, contents, hframe, hphysical, hitem, hcontents, rfl⟩
  refine ⟨.ok next, _, hstops.mono ?_⟩
  rintro call t (rfl | ⟨hcall, rfl⟩)
  · exact ⟨.refl _ t, Or.inl hstops.run⟩
  · exact ⟨huncounted.agreeOff,
      Or.inr ⟨hcall, marker, metadata, count, next, huncounted, rfl, hagain⟩⟩

/-- What is read first at the key itself is found again. -/
theorem bind_read {α : Type} {found : α → Prop} {first : StoreM α} {rest : α → StoreM UInt64}
    (hsteady : Steady first) (hlocal : Local (fun other => Key.ofText key = other) first)
    (hfirst : Ends table first fun outcome after => after = table ∧
      ∀ a, outcome = .ok a → found a)
    (hrest : ∀ a, found a → Retries key table (rest a)) : Retries key table (first >>= rest) := by
  obtain ⟨outcome, _, hread⟩ := hsteady table
  obtain ⟨_, _, hrun, _, hfound⟩ := hfirst
  cases hread.run.symm.trans hrun
  cases outcome with
  | error e => exact .of_unchanged hread.bind_error
  | ok a =>
      obtain ⟨outcome, after, hstops⟩ := hrest a (hfound a rfl)
      refine ⟨outcome, after, (hstops.bind_read hsteady hlocal (fun _ => not_isItem_of_eq) hread.run
        (fun _ => ⟨.refl _ table, Or.inl hstops.run⟩) fun _ _ hleft => hleft.1).mono ?_⟩
      rintro call left ⟨⟨hagree, hagain⟩, hsame⟩
      rw [← hsame] at hagain
      exact ⟨hagree, hagain⟩

end Retries

/-- The count of a structure that is read first. -/
theorem retries_counted {counted : Counted} {rest : UInt64 × Option Instant → StoreM UInt64}
    (hrest : ∀ count expireAt,
      table.HasFrame (Key.ofText key) ⟨counted.metadata count, expireAt⟩ →
      Retries key table (rest (count, expireAt))) :
    Retries key table (readCount key counted >>= rest) :=
  .bind_read (steady_readCount key counted) (local_readCount rfl counted)
    (ends_readCount table key counted) fun found hframe => hrest found.1 found.2 hframe

/-- The metadata of a filter that is read first. -/
theorem retries_bloom {rest : BloomHandle × Option Instant → StoreM UInt64}
    (hrest : ∀ handle expireAt, table.HasFrame (Key.ofText key) ⟨.bloom handle, expireAt⟩ →
      Retries key table (rest (handle, expireAt))) :
    Retries key table (Membership.readHandle key >>= rest) :=
  .bind_read (Membership.steady_readHandle key) (Membership.local_readHandle rfl)
    (Holds.ends_readBloom table key) fun found hframe => hrest found.1 found.2 hframe

/-! ## One item -/

/-- A count that is written behind a new item. -/
theorem stops_increment {place : Call → Table → Prop} {contents : Bytes}
    (hroom : count.toNat < 18446744073709551615)
    (hcontents : Frame.encode ⟨metadata (count + 1), expireAt⟩ = .ok contents)
    (hplace : place .set left) :
    Stops place left
      (do
        let count ← increment count
        write (Key.ofText key) (metadata count) expireAt
        return count)
      (.ok (count + 1)) (left.insert (Key.ofText key) contents) := by
  rw [increment, if_pos hroom]
  exact .bind (.pure (count + 1)) (.bind (stops_write hcontents hplace) (.pure (count + 1)))

theorem stops_increment_full {place : Call → Table → Prop} {rest : UInt64 → StoreM UInt64}
    (hfull : ¬ count.toNat < 18446744073709551615) :
    Stops place left (increment count >>= rest) (.error .overflow) left := by
  rw [increment, if_neg hfull]
  exact .bind_error (.throw _)

/-- An item is written and counted if it is new.  When the count was not written,
the item is known the next time. -/
theorem retries_addItem {body : Option Bytes → StoreM UInt64} (hcounts : Counts marker metadata)
    (hframe : table.HasFrame (Key.ofText key) ⟨metadata count, expireAt⟩)
    (hphysical : Key.itemStem key marker <+: physical) (value : Value)
    (hget : table.get? physical = none)
    (hnew : body none = do
      write physical value none
      let count ← increment count
      write (Key.ofText key) (metadata count) expireAt
      return count)
    (hknown : ∀ item, Frame.encode ⟨value, none⟩ = .ok item →
      (body (some item)).run (ofTable (table.insert physical item)) =
        (.ok count, ofTable (table.insert physical item))) :
    Retries key table (Engine.get physical >>= body) := by
  obtain ⟨contents, hcontents⟩ := hcounts.exists_encode (count + 1) hframe.asStored_expireAt
  have hstart : ∀ {place : Call → Table → Prop} {outcome : Except StoreError UInt64}
      {after : Table}, place .get table → Stops place table (body none) outcome after →
      Stops place table (Engine.get physical >>= body) outcome after :=
    fun hplace hbody => .bind (.get_eq hget hplace) hbody
  rw [hnew] at hstart
  cases hitem : Frame.encode ⟨value, none⟩ with
  | error fault => exact .of_unchanged (hstart rfl (.bind_error (stops_write_error hitem)))
  | ok item =>
      by_cases hroom : count.toNat < 18446744073709551615
      · apply Retries.of_halves hcounts hframe hphysical (.added hget hroom item) hcontents
        · exact hstart (Or.inl rfl) (.bind (stops_write hitem (Or.inl rfl))
            (stops_increment hroom hcontents (Or.inr ⟨rfl, rfl⟩)))
        · rw [run_bind_ok (run_get _ physical), Table.get?_insert_self]
          exact hknown item hitem
      · exact .of_unchanged (hstart rfl (.bind (stops_write hitem rfl)
          (stops_increment_full hroom)))

/-- An item is written, over another one or as a new one. -/
theorem retries_putItem (hcounts : Counts marker metadata)
    (hframe : table.HasFrame (Key.ofText key) ⟨metadata count, expireAt⟩)
    (hphysical : Key.itemStem key marker <+: physical) (value : Value) :
    Retries key table
      (do
        let known := (← Engine.get physical).isSome
        write physical value none
        if known then return count
        let count ← increment count
        write (Key.ofText key) (metadata count) expireAt
        return count) := by
  cases hget : table.get? physical with
  | some found =>
      cases hitem : Frame.encode ⟨value, none⟩ with
      | error fault =>
          exact .of_unchanged (.bind (.get_eq hget rfl) (.bind_error (stops_write_error hitem)))
      | ok item =>
          exact .of_unchanged (.bind (.get_eq hget rfl)
            (.bind (stops_write hitem rfl) (.pure count)))
  | none =>
      apply retries_addItem hcounts hframe hphysical value hget rfl
      intro item hitem
      -- The item is found and written over.
      rw [run_bind_ok (run_write hitem), Table.insert_insert]
      rfl

/-- An item is written unless it is there. -/
theorem retries_putNewItem (hcounts : Counts marker metadata)
    (hframe : table.HasFrame (Key.ofText key) ⟨metadata count, expireAt⟩)
    (hphysical : Key.itemStem key marker <+: physical) (value : Value) :
    Retries key table
      (do
        if (← Engine.get physical).isSome then return count
        write physical value none
        let count ← increment count
        write (Key.ofText key) (metadata count) expireAt
        return count) := by
  cases hget : table.get? physical with
  | some found => exact .of_unchanged (.bind (.get_eq hget rfl) (.pure count))
  | none => exact retries_addItem hcounts hframe hphysical value hget rfl fun _ _ => rfl

/-- An item is removed if it is there. -/
theorem retries_takeItem (hcounts : Counts marker metadata)
    (hframe : table.HasFrame (Key.ofText key) ⟨metadata count, expireAt⟩)
    (hphysical : Key.itemStem key marker <+: physical) :
    Retries key table
      (do
        if (← Engine.get physical).isNone then return count
        Engine.delete physical
        write (Key.ofText key) (metadata (decrement count)) expireAt
        return decrement count) := by
  obtain ⟨contents, hcontents⟩ := hcounts.exists_encode (decrement count) hframe.asStored_expireAt
  cases hget : table.get? physical with
  | none => exact .of_unchanged (.bind (.get_eq hget rfl) (.pure count))
  | some found =>
      have hpresent : table.get? physical ≠ none := by simp [hget]
      apply Retries.of_halves hcounts hframe hphysical (.removed hpresent) hcontents
      · exact .bind (.get_eq hget (Or.inl rfl)) (.bind (.delete (Or.inl rfl) physical)
          (.bind (stops_write hcontents (Or.inr ⟨rfl, rfl⟩)) (.pure (decrement count))))
      · rw [run_bind_ok (run_get _ physical), Table.get?_erase_self]
        rfl

end Store

open Store

/-! ## Lists -/

/-- An item that was written is written over before the last call. -/
theorem Store.restarts_write_bind {α : Type} (physical : Bytes) (value : Value)
    (expireAt : Option Instant) {last : StoreM α} (hlast : Abrupt last) :
    Restarts (fun other => other = physical) (write physical value expireAt >>= fun _ => last) := by
  cases hencode : Frame.encode ⟨value, expireAt⟩ with
  | error fault =>
      exact .of_abrupt fun table => ⟨_, table, (stops_write_error hencode).bind_error⟩
  | ok item =>
      rw [write, hencode]
      exact Restarts.set_bind hlast

/-- A push is made again at the same index. -/
theorem Deque.restarts_push (key : String) (value : Value) (side : End) :
    Restarts (Key.IsItem key) (push key value side) := by
  apply Restarts.bind_read (steady_readHandle key) (local_readHandle rfl) fun _ => not_isItem_of_eq
  intro ⟨handle, expireAt⟩
  have hgrow : Local (fun _ => False) (grow handle side) := local_grow handle side
  apply Restarts.bind_read (steady_grow handle side) hgrow fun _ h => h.elim
  intro ⟨grown, index⟩
  have hlast : Abrupt (writeHandle key grown expireAt >>= fun _ => pure grown.length) := by
    rw [bind_pure_comp]
    exact (abrupt_write _ _ _).map _
  apply (restarts_write_bind (Key.listItem key index) value none hlast).mono
  rintro physical rfl
  exact ⟨.list, Key.itemStem_prefix_listItem key index⟩

/-! ## Series -/

namespace Series

/-- What is updated under the key of a point, if the instant has one. -/
theorem retries_point {table : Table} {key : String} {instant : Instant}
    {rest : Bytes → StoreM UInt64}
    (hrest : ∀ selector, Retries key table (rest (Key.item key .series selector))) :
    Retries key table (pointKey key instant >>= rest) := by
  cases hselector : Key.instantSelector instant with
  | error fault =>
      rw [pointKey_error key hselector]
      exact .of_unchanged (.bind_error (.throw _))
  | ok selector =>
      rw [pointKey_ok key hselector, pure_bind]
      exact hrest selector

end Series

/-! ## Operations -/

namespace Operation

/-- Whether an operation adds or removes one item of a structure that counts its
items. -/
def countsItem : Operation → Bool
  | .mapSet _ _ _ | .mapRemove _ _ | .setAdd _ _ | .setRemove _ _ | .bloomAdd _ _
  | .seriesAdd _ _ _ | .seriesRemove _ _ => true
  | _ => false

/-- Whether an operation adds or removes one item of any structure, a list at its
ends only. -/
def revisesItem : Operation → Bool
  | .listPush _ _ _ => true
  | op => op.countsItem

/-- Such an operation does not depend on the time at which it is made. -/
theorem perform_eq_of_revisesItem {op : Operation} (h : op.revisesItem = true)
    (env later : Environment) : op.perform later = op.perform env := by
  cases op <;> first | rfl | cases h

/-- An update of a structure that counts its items answers with the count. -/
theorem exists_retries (env : Environment) {op : Operation} {key : String}
    (hkey : op.key? = some key) (hcounts : op.countsItem = true) (table : Table) :
    ∃ action, op.perform env = Reply.count <$> action ∧ Retries key table action := by
  cases op <;> cases hkey <;> cases hcounts
  case mapSet field value =>
      exact ⟨_, rfl, retries_counted fun _ _ hframe =>
        retries_putItem (.counted .map) hframe (List.prefix_append _ _) value⟩
  case mapRemove field =>
      exact ⟨_, rfl, retries_counted fun _ _ hframe =>
        retries_takeItem (.counted .map) hframe (List.prefix_append _ _)⟩
  case setAdd member =>
      exact ⟨_, rfl, retries_counted fun _ _ hframe =>
        retries_putNewItem (.counted .set) hframe (List.prefix_append _ _) .null⟩
  case setRemove member =>
      exact ⟨_, rfl, retries_counted fun _ _ hframe =>
        retries_takeItem (.counted .set) hframe (List.prefix_append _ _)⟩
  case bloomAdd item =>
      exact ⟨_, rfl, retries_bloom fun handle _ hframe =>
        retries_putItem (.of_bloom hframe) hframe (List.prefix_append _ _) _⟩
  case seriesAdd instant value =>
      exact ⟨_, rfl, retries_counted fun _ _ hframe => Series.retries_point fun _ =>
        retries_putItem (.counted .series) hframe (List.prefix_append _ _) value⟩
  case seriesRemove instant =>
      exact ⟨_, rfl, retries_counted fun _ _ hframe => Series.retries_point fun _ =>
        retries_takeItem (.counted .series) hframe (List.prefix_append _ _)⟩

/-- What becomes of an update that a failing call stopped and that is made again:
it answers and leaves what a single one without failures would have answered and
left.  The exception is an item that has come or gone in a structure that counts
its items, while the write of the count failed: the second update answers the
old count and changes nothing, and the count is what repair writes, if the old
one was right. -/
theorem update_retried (table : Table) (env later : Environment) {op : Operation}
    {plan : FaultPlan} (hrevises : op.revisesItem = true) (hinert : plan.Inert) :
    let broken := (op.perform env).run ⟨table, some plan⟩
    ∃ outcome finished, (op.perform env).run (.ofTable table) = (outcome, .ofTable finished) ∧
      ((∃ made, broken = (outcome, ⟨finished, some { plan with made }⟩)) ∨
        ∃ call left, StoppedAt plan call left broken ∧
          ((op.perform later).run (.ofTable left) = (outcome, .ofTable finished) ∨
            op.countsItem = true ∧ call = .set ∧
            ∃ key marker metadata count next, op.key? = some key ∧
              Uncounted key marker metadata count next table left finished ∧
              outcome = .ok (.count next) ∧
              (op.perform later).run (.ofTable left) = (.ok (.count count), .ofTable left) ∧
              (table.countUnder (Key.itemStem key marker) = count.toNat →
                ∃ report, (Repair.repair key).run (.ofTable left) =
                  (.ok report, .ofTable finished)))) := by
  intro broken
  rw [perform_eq_of_revisesItem hrevises env later]
  by_cases hcounts : op.countsItem = true
  · obtain ⟨key, hkey⟩ : ∃ key, op.key? = some key := by
      cases op <;> first | exact ⟨_, rfl⟩ | cases hcounts
    obtain ⟨action, hperform, outcome, finished, hstops⟩ := exists_retries env hkey hcounts table
    have hmapped := hstops.map Reply.count
    rw [← hperform] at hmapped
    refine ⟨_, finished, hmapped.run, ?_⟩
    obtain hdone | ⟨call, left, hstopped, _, hagain⟩ := hmapped.stopped plan hinert
    · exact Or.inl hdone
    refine Or.inr ⟨call, left, hstopped, ?_⟩
    rw [hperform, run_map]
    obtain hagain | ⟨hcall, marker, metadata, count, next, huncounted, rfl, hagain⟩ := hagain
    · rw [hagain]
      exact Or.inl rfl
    · rw [hagain]
      exact Or.inr ⟨hcounts, hcall, key, marker, metadata, count, next, hkey, huncounted, rfl, rfl,
        huncounted.run_repair⟩
  · obtain ⟨key, side, value, rfl⟩ : ∃ key side value, op = .listPush key side value := by
      cases op <;> first | exact ⟨_, _, _, rfl⟩ | exact absurd hrevises hcounts
    obtain ⟨outcome, finished, hstops⟩ :=
      (Deque.restarts_push key value side).map Reply.integer table
    refine ⟨outcome, finished, hstops.run, ?_⟩
    obtain hdone | ⟨call, left, hstopped, _, hagain⟩ := hstops.stopped plan hinert
    · exact Or.inl hdone
    · exact Or.inr ⟨call, left, hstopped, Or.inl hagain⟩

/-- A set of two members loses one of them, and the write of its count fails. -/
theorem update_retried_removal :
    let env : Environment := ⟨.ofInt64 0, ⟨60, by decide, by decide⟩, .none⟩
    let later : Environment := ⟨.ofInt64 5, ⟨60, by decide, by decide⟩, .none⟩
    let session : Session := ⟨.ofTable .empty, ⟨0⟩, env.width, .none⟩
    let table := (session.run [.operation (.setCreate "key"), .operation (.setAdd "key" "a"),
      .operation (.setAdd "key" "b")]).2.engine.table
    let op : Operation := .setRemove "key" "a"
    let plan : FaultPlan := .after [.set] 0
    let broken := (op.perform env).run ⟨table, some plan⟩
    op.revisesItem = true ∧ plan.Inert ∧
      broken.2.table.HasFrame (Key.ofText "key") ⟨.set 2, none⟩ ∧
      broken.2.table.countUnder (Key.itemStem "key" .set) = 1 ∧
      ∃ outcome finished, (op.perform env).run (.ofTable table) = (outcome, .ofTable finished) ∧
        ((∃ made, broken = (outcome, ⟨finished, some { plan with made }⟩)) ∨
          ∃ call left, StoppedAt plan call left broken ∧
            ((op.perform later).run (.ofTable left) = (outcome, .ofTable finished) ∨
              op.countsItem = true ∧ call = .set ∧
              ∃ key marker metadata count next, op.key? = some key ∧
                Uncounted key marker metadata count next table left finished ∧
                outcome = .ok (.count next) ∧
                (op.perform later).run (.ofTable left) = (.ok (.count count), .ofTable left) ∧
                (table.countUnder (Key.itemStem key marker) = count.toNat →
                  ∃ report, (Repair.repair key).run (.ofTable left) =
                    (.ok report, .ofTable finished)))) := by
  intro env later session table op plan broken
  have hinert : plan.Inert := FaultPlan.inert_after [.set] 0
  exact ⟨rfl, hinert, by decide +kernel, by decide +kernel,
    update_retried table env later rfl hinert⟩

/-- A map is given its first field, and the write of its count fails.  Made
again, the same operation finds the field, answers none and leaves the map
without a count. -/
theorem update_retried_forgotten :
    let env : Environment := ⟨.ofInt64 0, ⟨60, by decide, by decide⟩, .none⟩
    let session : Session := ⟨.ofTable .empty, ⟨0⟩, env.width, .none⟩
    let table := (session.run [.operation (.mapCreate "key")]).2.engine.table
    let op : Operation := .mapSet "key" "f" .null
    let plan : FaultPlan := .after [.set] 1
    let broken := (op.perform env).run ⟨table, some plan⟩
    let single := (op.perform env).run (.ofTable table)
    let second := (op.perform env).run (.ofTable broken.2.table)
    plan.Inert ∧ broken.1 = .error (.io .injected) ∧
      single.1 = .ok (.count 1) ∧ second.1 = .ok (.count 0) ∧
      single.2.table.HasFrame (Key.ofText "key") ⟨.map 1, none⟩ ∧
      second.2.table.HasFrame (Key.ofText "key") ⟨.map 0, none⟩ := by
  intro env session table op plan broken single second
  exact ⟨FaultPlan.inert_after [.set] 1, by decide +kernel, by decide +kernel, by decide +kernel,
    by decide +kernel, by decide +kernel⟩

end Operation
end StructuredStore
