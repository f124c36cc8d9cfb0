import StructuredStore.Proofs.Store.Preservation

/-!
# Repair makes metadata and items agree

The two sides of repair: what it makes of a structure in any store at all, and
that it finds nothing to do where only operations of the store were at work.

Main results:

- `repair_restores`: repair restores the representation, and is not needed by
  what the operations lead to.
-/

namespace StructuredStore.Repair

open Engine Store Deque

/-- Repair restores the representation of a structure from any rows, says
whether it changed any, and has nothing left to do.  After operations on the key
alone it has nothing to do in the first place. -/
theorem repair_restores (key : String) :
    (∀ (table : Table) (frame : Frame), table.HasFrame (Key.ofText key) frame →
      frame.value.kind.isStructure = true →
      (∀ marker, frame.value.marker? = some marker →
        table.countUnder (Key.itemStem key marker) < 2 ^ 63) →
      ∀ report engine, (repair key).run (.ofTable table) = (.ok report, engine) →
      ∃ after, engine = .ofTable after ∧ Restored table key frame after ∧
        (report.changed = true ↔ after ≠ table) ∧
        ∃ again, (repair key).run (.ofTable after) = (.ok again, .ofTable after) ∧
          again.changed = false) ∧
    (∀ (session : Session) (steps : List Session.Step), session.engine = .ofTable .empty →
      (∀ op ∈ Session.operations steps, op.key? = some key ∧ op.schedules = false) →
      (Session.operations steps).length < 2 ^ 63 →
      ∃ table, (session.run steps).2.engine = .ofTable table ∧
        (∀ outcome engine, (repair key).run (.ofTable table) = (outcome, engine) →
          engine = .ofTable table ∧ ∀ report, outcome = .ok report → report.changed = false) ∧
        ∀ frame, table.HasFrame (Key.ofText key) frame →
          ∃ report, (repair key).run (.ofTable table) = (.ok report, .ofTable table)) := by
  constructor
  · intro table frame hframe _ hcount report engine hrun
    rcases ends_repair hframe hcount with ⟨outcome, after, hrun', hafter⟩
    rw [hrun] at hrun'
    cases hrun'
    exact ⟨after, rfl, hafter report rfl⟩
  · intro session steps hstart hops hcount
    rcases Session.run_holds session hstart key steps hops hcount
      with ⟨table, htable, expireAt, hholds⟩
    refine ⟨table, htable, fun outcome engine hrun => ?_, fun frame hframe => ?_⟩
    · rcases ends_readExisting table (Key.ofText key) with ⟨found, between, hread, rfl, hfound⟩
      cases found with
      | error e =>
          have hfail : (repair key).run (.ofTable between) = (.error e, .ofTable between) :=
            run_bind_error hread
          rw [hfail] at hrun
          cases hrun
          exact ⟨rfl, fun _ h => by cases h⟩
      | ok frame =>
          rcases hholds.run_repair hcount (hfound frame rfl) with ⟨report, hrepair, hchanged⟩
          rw [hrepair] at hrun
          cases hrun
          refine ⟨rfl, fun answer hanswer => ?_⟩
          cases hanswer
          exact hchanged
    · rcases hholds.run_repair hcount hframe with ⟨report, hrepair, _⟩
      exact ⟨report, hrepair⟩

/-- A list of two items with a hole between them and wrong metadata is repaired;
a map that operations filled needs no repair. -/
theorem repair_closes_hole :
    let contents : Bytes := 0x10 :: [3, 0, 0, 0, 0, 0, 0, 0, 9, 0, 0, 0, 0, 0, 0, 0,
      7, 0, 0, 0, 0, 0, 0, 0, 0, 0, 0, 0, 0, 0, 0, 0]
    let table := ((Table.empty.insert (Key.ofText "key") contents).insert
      (Key.listItem "key" 3) [1]).insert (Key.listItem "key" 5) [2]
    let frame : Frame := ⟨.list ⟨3, 9, 7⟩, none⟩
    let session : Session := ⟨.ofTable .empty, ⟨0⟩, ⟨60, by decide, by decide⟩, .none⟩
    let steps : List Session.Step := [.operation (.mapCreate "key"), .clockSet (.ofInt64 5),
      .operation (.mapSet "key" "field" .null)]
    table.HasFrame (Key.ofText "key") frame ∧ frame.value.kind.isStructure = true ∧
      (∀ marker, frame.value.marker? = some marker →
        table.countUnder (Key.itemStem "key" marker) < 2 ^ 63) ∧
      (∀ op ∈ Session.operations steps, op.key? = some "key" ∧ op.schedules = false) ∧
      (Session.operations steps).length < 2 ^ 63 ∧
      (∃ after, (repair "key").run (.ofTable table) = (.ok ⟨.list, 7, 2, true⟩, .ofTable after) ∧
        Restored table "key" frame after ∧ after ≠ table ∧
        ∃ again, (repair "key").run (.ofTable after) = (.ok again, .ofTable after) ∧
          again.changed = false) ∧
      ∃ filled, (session.run steps).2.engine = .ofTable filled ∧
        ∀ outcome engine, (repair "key").run (.ofTable filled) = (outcome, engine) →
          engine = .ofTable filled ∧ ∀ report, outcome = .ok report → report.changed = false := by
  intro contents table frame session steps
  have hframe : table.HasFrame (Key.ofText "key") frame := ⟨contents, rfl, rfl⟩
  have hcount : ∀ marker, frame.value.marker? = some marker →
      table.countUnder (Key.itemStem "key" marker) < 2 ^ 63 := by
    intro marker hmarker
    cases hmarker
    have htwo : table.countUnder (Key.itemStem "key" .list) = 2 := rfl
    rw [htwo]
    decide
  have hops : ∀ op ∈ Session.operations steps, op.key? = some "key" ∧ op.schedules = false := by
    intro op hop
    rcases List.mem_pair.mp hop with rfl | rfl <;> exact ⟨rfl, rfl⟩
  have hlength : (Session.operations steps).length < 2 ^ 63 := by decide
  have hreport : ((repair "key").run (.ofTable table)).1.toOption = some ⟨.list, 7, 2, true⟩ := by
    decide +kernel
  have hrun : ∃ engine, (repair "key").run (.ofTable table) =
      (.ok ⟨.list, 7, 2, true⟩, engine) := by
    generalize (repair "key").run (.ofTable table) = result at hreport
    rcases result with ⟨e | report, engine⟩ <;> cases hreport
    exact ⟨engine, rfl⟩
  rcases hrun with ⟨engine, hrun⟩
  rcases (repair_restores "key").1 table frame hframe rfl hcount _ _ hrun
    with ⟨after, rfl, hrestored, hchanged, hagain⟩
  rcases (repair_restores "key").2 session steps rfl hops hlength with ⟨filled, hfilled, hkept, _⟩
  exact ⟨hframe, rfl, hcount, hops, hlength,
    ⟨after, hrun, hrestored, hchanged.mp rfl, hagain⟩, filled, hfilled, hkept⟩

end StructuredStore.Repair
