import StructuredStore.Proofs.Engine.Contents
import StructuredStore.Proofs.Engine.Execution

/-!
# What a scan shows

A scan under a stem meets every key that starts with it, whatever the keys and
whatever the stem, because such keys are adjacent in the order of the table.  A
visitor is shown them one after the other and may end the scan.  What it was
shown is described by a relation that follows the visits, and a visitor that
takes notes makes it part of the answer.

Main definitions:

- `Table.Shows`: a visitor is shown some rows and ends the scan, or not.
- `Table.noting`: the visitor that also notes the rows it is shown.

Main results:

- `Table.exists_shows`: a visitor is shown the first rows, up to the one where
  it stops.
- `Engine.scan_eq_visitUnder`: a scan is a visit that notes every row.
- `Engine.scan_complete`: scans, visits, reads and writes agree.
-/

namespace StructuredStore
namespace Table

variable {σ : Type} {visit : σ → Row → σ × Visit} {start final : σ} {rows shown : List Row}

/-! ## Visits -/

/-- Whether a visitor that starts in one state and is shown the rows, in this
order, ends in the other state, with its last answer.  It goes on after every
row but the last. -/
inductive Shows (visit : σ → Row → σ × Visit) : σ → List Row → σ → Visit → Prop where
  | done (state : σ) : Shows visit state [] state .proceed
  | proceed {state next final : σ} {row : Row} {rows : List Row} {answer : Visit}
      (hvisit : visit state row = (next, .proceed)) (hrest : Shows visit next rows final answer) :
      Shows visit state (row :: rows) final answer
  | stop {state next : σ} {row : Row} (hvisit : visit state row = (next, .stop)) :
      Shows visit state [row] next .stop

/-- The visitor that also notes the rows it is shown. -/
def noting (visit : σ → Row → σ × Visit) (state : σ × List Row) (row : Row) :
    (σ × List Row) × Visit :=
  (((visit state.1 row).1, state.2 ++ [row]), (visit state.1 row).2)

/-- A visitor is shown the first rows: those up to the row where it stops, or
all of them. -/
theorem exists_shows (visit : σ → Row → σ × Visit) (start : σ) (rows : List Row) :
    ∃ shown answer, Shows visit start shown (visitRows visit start rows) answer ∧
      shown <+: rows ∧ (answer = .proceed → shown = rows) := by
  induction rows generalizing start with
  | nil => exact ⟨[], .proceed, .done start, List.nil_prefix, fun _ => rfl⟩
  | cons row rows ih =>
      rw [visitRows]
      split
      · rename_i next hvisit
        obtain ⟨shown, answer, hshows, hshown, hall⟩ := ih next
        exact ⟨row :: shown, answer, .proceed hvisit hshows, (List.prefix_cons_inj row).mpr hshown,
          fun hproceed => congrArg (row :: ·) (hall hproceed)⟩
      · rename_i next hvisit
        exact ⟨[row], .stop, .stop hvisit, by simp, Visit.noConfusion⟩

/-- Notes are taken of exactly the rows that are shown, beside what the visitor
does with them. -/
theorem Shows.visitRows_noting {answer : Visit} (h : Shows visit start shown final answer)
    (hshown : shown <+: rows) (hall : answer = .proceed → shown = rows) (notes : List Row) :
    visitRows (noting visit) (start, notes) rows = (final, notes ++ shown) := by
  induction h generalizing rows notes with
  | done state =>
      cases hall rfl
      simp [visitRows]
  | @proceed state next final row shown answer hvisit _ ih =>
      obtain ⟨rest, rfl⟩ := hshown
      have hrest := @ih (shown ++ rest) (List.prefix_append _ _)
        (fun hproceed => List.tail_eq_of_cons_eq (hall hproceed)) (notes ++ [row])
      simpa [visitRows, noting, hvisit] using hrest
  | @stop state next row hvisit =>
      obtain ⟨rest, rfl⟩ := hshown
      simp [visitRows, noting, hvisit]

/-- A visitor that only takes notes is shown all rows. -/
theorem visitRows_collect (rows notes : List Row) :
    visitRows (fun notes row => (notes ++ [row], .proceed)) notes rows = notes ++ rows := by
  induction rows generalizing notes with
  | nil => simp [visitRows]
  | cons row rows ih => simp [visitRows, ih]

/-! ## Writes -/

/-- A write puts its row into the scans under the stems of its key, in place of
what was there. -/
theorem mem_rowsUnder_insert (table : Table) (stem key contents : Bytes) (row : Row) :
    row ∈ (table.insert key contents).rowsUnder stem ↔
      (row = (key, contents) ∧ stem <+: key) ∨ (row ∈ table.rowsUnder stem ∧ row.1 ≠ key) := by
  obtain ⟨other, found⟩ := row
  rw [mem_rowsUnder, mem_rowsUnder, get?_insert]
  by_cases hsame : key = other
  · subst hsame
    simp [eq_comm]
  · simp [hsame, Ne.symm hsame]

/-- A removal takes its row out of all scans. -/
theorem mem_rowsUnder_erase (table : Table) (stem key : Bytes) (row : Row) :
    row ∈ (table.erase key).rowsUnder stem ↔ row ∈ table.rowsUnder stem ∧ row.1 ≠ key := by
  rw [mem_rowsUnder, mem_rowsUnder, get?_erase]
  by_cases hsame : key = row.1
  · simp [hsame]
  · simp [hsame, Ne.symm hsame]

end Table

/-! ## Calls -/

namespace Engine

open Table

/-- A scan is a visit that goes on and notes every row, whichever calls fail. -/
theorem scan_eq_visitUnder (stem : Bytes) :
    scan stem = visitUnder stem (fun notes row => (notes ++ [row], .proceed)) [] := by
  simp [scan, visitUnder, visitRows_collect]

/-- On every table and under every stem a scan answers exactly the rows that
point reads find under the stem, in strictly increasing order of their keys.  A
visitor is shown these rows in this order, up to and including the first where
it stops.  A write or a removal changes the scan by its own row and no other. -/
theorem scan_complete (table : Table) (stem : Bytes) :
    ∃ rows, (scan stem).run (ofTable table) = (.ok rows, ofTable table) ∧
      Rows.Sorted rows ∧
      (∀ key contents, (key, contents) ∈ rows ↔ stem <+: key ∧
        (get key).run (ofTable table) = (.ok (some contents), ofTable table)) ∧
      (∀ (σ : Type) (visit : σ → Row → σ × Visit) (start : σ), ∃ shown final answer,
        (visitUnder stem visit start).run (ofTable table) = (.ok final, ofTable table) ∧
        (visitUnder stem (noting visit) (start, [])).run (ofTable table) =
          (.ok (final, shown), ofTable table) ∧
        Shows visit start shown final answer ∧ shown <+: rows ∧
        (answer = .proceed → shown = rows)) ∧
      (∀ key contents, ∃ after written,
        (set key contents).run (ofTable table) = (.ok (), ofTable after) ∧
        (scan stem).run (ofTable after) = (.ok written, ofTable after) ∧
        ∀ row, row ∈ written ↔
          (row = (key, contents) ∧ stem <+: key) ∨ (row ∈ rows ∧ row.1 ≠ key)) ∧
      ∀ key, ∃ after left,
        (delete key).run (ofTable table) = (.ok (), ofTable after) ∧
        (scan stem).run (ofTable after) = (.ok left, ofTable after) ∧
        ∀ row, row ∈ left ↔ row ∈ rows ∧ row.1 ≠ key := by
  refine ⟨table.rowsUnder stem, run_scan table stem, sorted_rowsUnder table stem,
    fun key contents => ?_, fun σ visit start => ?_, fun key contents => ?_, fun key => ?_⟩
  · rw [mem_rowsUnder, run_get, Prod.mk.injEq, Except.ok.injEq]
    simp [and_comm]
  · obtain ⟨shown, answer, hshows, hshown, hall⟩ :=
      exists_shows visit start (table.rowsUnder stem)
    have hnotes := hshows.visitRows_noting hshown hall []
    rw [List.nil_append] at hnotes
    exact ⟨shown, _, answer, run_visitUnder table stem visit start,
      hnotes ▸ run_visitUnder table stem (noting visit) (start, []), hshows, hshown, hall⟩
  · exact ⟨_, _, run_set table key contents, run_scan _ stem,
      mem_rowsUnder_insert table stem key contents⟩
  · exact ⟨_, _, run_delete table key, run_scan _ stem, mem_rowsUnder_erase table stem key⟩

/-- No byte string bounds the keys under a stem of greatest bytes from above. -/
example :
    let rows : List Row :=
      [([0xfe], [0]), ([0xff], [1]), ([0xff, 0xff], [2]), ([0xff, 0xff, 0], [3])]
    (Table.ofRows rows).rowsUnder [0xff, 0xff] = rows.drop 2 := by
  decide

end Engine
end StructuredStore
