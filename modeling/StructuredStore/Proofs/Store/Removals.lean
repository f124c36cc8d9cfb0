import StructuredStore.Proofs.Engine.Restarting
import StructuredStore.Proofs.Store.Interruption
import StructuredStore.Proofs.Store.Locality
import StructuredStore.Proofs.Store.Revisions

/-!
# Removals that are made again

A value is removed with its items, a list is trimmed and a filter is cleared by
many removals and one last call on the metadata.  Until that call the metadata
says what it said, so a removal that was stopped is made again for the same
indices, or for those rows under the stem that are still there.

Main results:

- `strips_removeItems`, `strips_removeIndices`: the rows that a removal takes.
- `restarts_purge`, `Deque.restarts_trim`, `Membership.restarts_clear`: removals
  that can be made again.
- `Operation.removal_converges`: what the second one leaves is what an
  undisturbed one would have left.
-/

namespace StructuredStore

open Engine

/-! ## Items -/

/-- Whether a physical key is that of an item of a logical one. -/
def Key.IsItem (key : String) (physical : Bytes) : Prop :=
  ∃ marker, itemStem key marker <+: physical

/-- A key is none of its own items. -/
theorem Key.not_isItem_ofText (key : String) : ¬ IsItem key (ofText key) := by
  rintro ⟨marker, hstem⟩
  exact not_itemStem_prefix_ofText key marker hstem

namespace Store

variable {key : String}

theorem abrupt_write (physical : Bytes) (value : Value) (expireAt : Option Instant) :
    Abrupt (write physical value expireAt) :=
  .bind_steady (steady_lift _) fun _ => .set _ _

theorem strips_removeKeys (keys : List Bytes) :
    Strips (fun physical => physical ∈ keys) (removeKeys keys) := by
  induction keys with
  | nil => exact Strips.pure.congr (by simp)
  | cons key keys ih => exact ((Strips.delete key).bind ih).congr (by simp)

/-- All rows under a stem are removed, however many are left. -/
theorem strips_removeItems (key : String) (marker : Key.Marker) :
    Strips (fun physical => Key.itemStem key marker <+: physical) (removeItems key marker) := by
  intro table
  obtain ⟨after, hloses, hstops⟩ :=
    strips_removeKeys ((table.rowsUnder (Key.itemStem key marker)).map (·.1)) table
  have hmem := Table.mem_map_fst_rowsUnder table (Key.itemStem key marker)
  have hunder : ∀ physical ∈ (table.rowsUnder (Key.itemStem key marker)).map (·.1),
      Key.itemStem key marker <+: physical := fun physical hfound =>
    ((hmem physical).mp hfound).2
  refine ⟨after, ⟨fun physical hstem => ?_, hloses.agree.mono hunder⟩,
    .bind (.scan (.refl _ table) _) (hstops.mono fun _ _ hagree => hagree.mono hunder)⟩
  by_cases hfound : physical ∈ (table.rowsUnder (Key.itemStem key marker)).map (·.1)
  · exact hloses.absent physical hfound
  · -- A row that the scan did not meet was not there.
    rw [hloses.agree physical hfound]
    by_contra hget
    exact hfound ((hmem physical).mpr ⟨hget, hstem⟩)

/-- The items of a list at some indices are removed. -/
theorem strips_removeIndices (key : String) (first : Int64) (count : Nat) :
    ∃ keys, (∀ physical, keys physical → Key.IsItem key physical) ∧
      Strips keys (removeIndices key first count) := by
  induction count generalizing first with
  | zero => exact ⟨_, fun _ h => h.elim, .pure⟩
  | succ count ih =>
      obtain ⟨keys, hitems, hstrips⟩ := ih (first + 1)
      refine ⟨_, ?_, (Strips.delete (Key.listItem key first)).bind hstrips⟩
      rintro physical (rfl | hrest)
      · exact ⟨.list, Key.itemStem_prefix_listItem key first⟩
      · exact hitems physical hrest

/-- A value is removed without failure, whatever lies under the stems of its
key. -/
theorem ends_purge (table : Table) (key : String) (value : Value) :
    Ends table (purge key value) fun outcome after =>
      outcome = .ok () ∧ after.get? (Key.ofText key) = none := by
  have hdelete : ∀ between : Table, Ends between (Engine.delete (Key.ofText key))
      fun outcome after => outcome = .ok () ∧ after.get? (Key.ofText key) = none :=
    fun between => .of_run (run_delete between _) ⟨rfl, Table.get?_erase_self between _⟩
  have hitems : ∀ marker, Ends table (removeItems key marker >>= fun _ =>
      Engine.delete (Key.ofText key)) fun outcome after =>
        outcome = .ok () ∧ after.get? (Key.ofText key) = none := by
    intro marker
    obtain ⟨between, hrun⟩ := (strips_removeItems key marker).exists_run table
    exact .bind_run hrun (hdelete between)
  cases value with
  | list handle =>
      obtain ⟨_, _, hstrips⟩ := strips_removeIndices key handle.head
        (spanLength handle.head handle.tail)
      obtain ⟨between, hrun⟩ := hstrips.exists_run table
      unfold purge
      dsimp only
      split
      · exact .bind_run hrun (hdelete between)
      · exact hdelete table
  | map count => exact hitems .map
  | set count => exact hitems .set
  | series count => exact hitems .series
  | bloom handle => exact hitems .bloom
  | _ => exact hdelete table

/-- A value is removed once more with the items that are left of it. -/
theorem restarts_purge (key : String) (value : Value) :
    Restarts (Key.IsItem key) (purge key value) := by
  have hself : Abrupt (Engine.delete (Key.ofText key)) := .delete _
  have hitems : ∀ marker, Restarts (Key.IsItem key)
      (removeItems key marker >>= fun _ => Engine.delete (Key.ofText key)) := fun marker =>
    ((strips_removeItems key marker).restarts hself).mono fun _ hstem => ⟨marker, hstem⟩
  cases value with
  | list handle =>
      obtain ⟨keys, hkeys, hstrips⟩ := strips_removeIndices key handle.head
        (spanLength handle.head handle.tail)
      unfold purge
      dsimp only
      split
      · exact (hstrips.restarts hself).mono hkeys
      · exact .of_abrupt hself
  | map count => exact hitems .map
  | set count => exact hitems .set
  | series count => exact hitems .series
  | bloom handle => exact hitems .bloom
  | _ => exact .of_abrupt hself

/-- What is read at the key itself is not touched by changes of its items. -/
theorem not_isItem_of_eq {physical : Bytes} (h : Key.ofText key = physical) :
    ¬ Key.IsItem key physical :=
  h ▸ Key.not_isItem_ofText key

theorem restarts_deleteAs (key : String) (kind : Kind) :
    Restarts (Key.IsItem key) (deleteAs key kind) :=
  .bind_read (steady_readAs _ kind) (local_readAs rfl kind) (fun _ => not_isItem_of_eq)
    fun frame => restarts_purge key frame.value

theorem restarts_delete (key : String) : Restarts (Key.IsItem key) (delete key) :=
  .bind_read (steady_readExisting _) (local_readExisting rfl) (fun _ => not_isItem_of_eq)
    fun frame => restarts_purge key frame.value

end Store

open Store

/-! ## Trimming and clearing -/

/-- A sum in front of what can be started again. -/
theorem Deque.restarts_inRange_bind {α : Type} {keys : Bytes → Prop} {cause : Abort} {i : Int}
    {next : Int64 → StoreM α} (hnext : ∀ index, Restarts keys (next index)) :
    Restarts keys (inRange cause i >>= next) := by
  have hlocal : Local (fun _ => False) (inRange cause i) := local_inRange cause i
  exact .bind_read (steady_inRange cause i) hlocal (fun _ h => h.elim) hnext

/-- The same items are cut off a list once more.  Where there is no index behind the
last one that is kept, both removals break off behind the first items. -/
theorem Deque.restarts_trim (key : String) (start stop : Int64) :
    Restarts (Key.IsItem key) (trim key start stop) := by
  apply Restarts.bind_read (steady_readHandle key) (local_readHandle rfl) fun _ => not_isItem_of_eq
  intro ⟨handle, expireAt⟩
  dsimp only
  split
  · exact .of_abrupt (.of_steady (.pure ()))
  split
  · obtain ⟨keys, hkeys, hstrips⟩ := strips_removeIndices key handle.head
      (spanLength handle.head handle.tail)
    exact (hstrips.restarts (abrupt_write _ _ _)).mono hkeys
  · rename_i first last _
    refine restarts_inRange_bind fun head => restarts_inRange_bind fun tail => ?_
    obtain ⟨lower, hlower, hfront⟩ := strips_removeIndices key handle.head
      (head.toInt - handle.head.toInt).toNat
    rcases inRange_cases .sum (tail.toInt + 1) with ⟨next, hnext⟩ | hnext
    · obtain ⟨upper, hupper, hback⟩ :=
        strips_removeIndices key next (spanLength next handle.tail)
      have hboth := (hfront.bind hback).restarts (abrupt_write (Key.ofText key)
        (.list ⟨head, tail, Int64.ofInt (last - first + 1)⟩) expireAt)
      rw [bind_assoc] at hboth
      rw [sum, hnext]
      exact hboth.mono fun physical h => h.elim (hlower physical) (hupper physical)
    · rw [sum, hnext]
      exact (hfront.restarts (.of_steady (.throw _))).mono hlower

/-- A filter is cleared of the items that are left of it. -/
theorem Membership.restarts_clear (key : String) : Restarts (Key.IsItem key) (clear key) := by
  apply Restarts.bind_read (steady_readHandle key) (local_readHandle rfl) fun _ => not_isItem_of_eq
  intro ⟨handle, expireAt⟩
  exact ((strips_removeItems key .bloom).restarts (abrupt_write _ _ _)).mono
    fun _ hstem => ⟨.bloom, hstem⟩

/-! ## Operations -/

namespace Operation

/-- Whether an operation removes many items, or a value with its items. -/
def removes : Operation → Bool
  | .listTrim _ _ _ | .bloomClear _ => true
  | op => op.deletes

theorem restarts_silent {keys : Bytes → Prop} {action : StoreM Unit} (h : Restarts keys action) :
    Restarts keys (silent action) := by
  have hmap : silent action = (fun _ => .done) <$> action := by
    rw [silent, map_eq_pure_bind]
  exact hmap ▸ h.map _

/-- A removal does not depend on the time at which it is made. -/
theorem perform_eq_of_removes {op : Operation} (h : op.removes = true) (env later : Environment) :
    op.perform later = op.perform env := by
  cases op <;> first | rfl | cases h

theorem restarts_perform (env : Environment) {op : Operation} (h : op.removes = true) :
    ∃ keys, Restarts keys (op.perform env) := by
  cases op <;> try cases h
  case delete key => exact ⟨_, restarts_silent (restarts_delete key)⟩
  case listTrim key start stop => exact ⟨_, restarts_silent (Deque.restarts_trim key start stop)⟩
  case listDelete key => exact ⟨_, restarts_silent (restarts_deleteAs key .list)⟩
  case mapDelete key => exact ⟨_, restarts_silent (restarts_deleteAs key .map)⟩
  case setDelete key => exact ⟨_, restarts_silent (restarts_deleteAs key .set)⟩
  case bloomClear key => exact ⟨_, restarts_silent (Membership.restarts_clear key)⟩
  case bloomDelete key => exact ⟨_, restarts_silent (restarts_deleteAs key .bloom)⟩
  case seriesDelete key => exact ⟨_, restarts_silent (restarts_deleteAs key .series)⟩

/-- A removal that a failing call stops is completed when it is made again: the
second one answers and leaves what a single one without failures would have
answered and left, whatever the store holds and whichever call fails. -/
theorem removal_converges (table : Table) (env later : Environment) {op : Operation}
    {plan : FaultPlan} (hremoves : op.removes = true) (hinert : plan.Inert) :
    let broken := (op.perform env).run ⟨table, some plan⟩
    ∃ outcome finished, (op.perform env).run (.ofTable table) = (outcome, .ofTable finished) ∧
      ((∃ made, broken = (outcome, ⟨finished, some { plan with made }⟩)) ∨
        ∃ call left, StoppedAt plan call left broken ∧
          (op.perform later).run (.ofTable left) = (outcome, .ofTable finished)) := by
  intro broken
  obtain ⟨keys, hrestarts⟩ := restarts_perform env hremoves
  obtain ⟨outcome, finished, hstops⟩ := hrestarts table
  refine ⟨outcome, finished, hstops.run, ?_⟩
  obtain hdone | ⟨call, left, hstopped, _, hagain⟩ := hstops.stopped plan hinert
  · exact Or.inl hdone
  · exact Or.inr ⟨call, left, hstopped, perform_eq_of_removes hremoves env later ▸ hagain⟩

/-- A list that expires is cut down to the middle one of its items, and the
second removal fails. -/
theorem removal_converges_trim :
    let metadata : Bytes := 0x10 :: [0, 0, 0, 0, 0, 0, 0, 0, 2, 0, 0, 0, 0, 0, 0, 0,
      3, 0, 0, 0, 0, 0, 0, 0, 7, 0, 0, 0, 0, 0, 0, 0]
    let table := (((Table.empty.insert (Key.ofText "key") metadata).insert
      (Key.listItem "key" 0) [1]).insert (Key.listItem "key" 1) [2]).insert
      (Key.listItem "key" 2) [3]
    let env : Environment := ⟨.ofInt64 0, ⟨60, by decide, by decide⟩, .none⟩
    let later : Environment := ⟨.ofInt64 5, ⟨60, by decide, by decide⟩, .none⟩
    let op : Operation := .listTrim "key" 1 1
    let plan : FaultPlan := .after [.delete] 1
    let broken := (op.perform env).run ⟨table, some plan⟩
    op.removes = true ∧ plan.Inert ∧
      broken.2.table.rows.map (·.1) =
        [Key.ofText "key", Key.listItem "key" 1, Key.listItem "key" 2] ∧
      ∃ outcome finished, (op.perform env).run (.ofTable table) = (outcome, .ofTable finished) ∧
        finished.rows.map (·.1) = [Key.ofText "key", Key.listItem "key" 1] ∧
        finished.HasFrame (Key.ofText "key") ⟨.list ⟨1, 1, 1⟩, some (.ofInt64 7)⟩ ∧
        ((∃ made, broken = (outcome, ⟨finished, some { plan with made }⟩)) ∨
          ∃ call left, StoppedAt plan call left broken ∧
            (op.perform later).run (.ofTable left) = (outcome, .ofTable finished)) := by
  intro metadata table env later op plan broken
  have hinert : plan.Inert := FaultPlan.inert_after [.delete] 1
  have hfinished : ((op.perform env).run (.ofTable table)).2.table.rows.map (·.1) =
        [Key.ofText "key", Key.listItem "key" 1] ∧
      ((op.perform env).run (.ofTable table)).2.table.HasFrame (Key.ofText "key")
        ⟨.list ⟨1, 1, 1⟩, some (.ofInt64 7)⟩ := by
    decide +kernel
  refine ⟨rfl, hinert, by decide +kernel, ?_⟩
  obtain ⟨outcome, finished, hrun, hconverges⟩ :=
    @removal_converges table env later op plan rfl hinert
  rw [hrun] at hfinished
  exact ⟨outcome, finished, hrun, hfinished.1, hfinished.2, hconverges⟩

end Operation
end StructuredStore
