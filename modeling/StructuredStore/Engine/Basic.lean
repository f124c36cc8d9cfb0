import StructuredStore.Engine.Table
import StructuredStore.StoreError

/-!
# The storage engine

The layer below the store: a table together with a plan of which calls fail.
Every operation of the store is a sequence of engine calls, and a failing call
ends it with the rows written so far.  Without a plan no call fails.

Main results:

- `run_get`, `run_set`, `run_delete`, `run_scan`: what a call does when no call
  fails.
-/

namespace StructuredStore

/-! ## Failing calls -/

/-- The calls that the store makes. -/
inductive Call where
  | get
  | set
  | delete
  | scan
  | flush
deriving DecidableEq, Repr

/-- What becomes of a call. -/
inductive Verdict where
  | pass
  /-- The call fails and does nothing. -/
  | failBefore
  /-- The call fails although it has taken effect. -/
  | failAfter
deriving DecidableEq, Repr

/-- A plan of failures, with the calls made under it so far. -/
structure FaultPlan where
  /-- What becomes of a call, given the calls before it, newest first. -/
  verdict : List Call → Call → Verdict
  /-- The calls made so far, newest first. -/
  made : List Call

/-- The plan under which `spared` calls of the given kinds pass and every later
one fails before it takes effect. -/
def FaultPlan.after (kinds : List Call) (spared : Nat) : FaultPlan where
  verdict := fun made call =>
    if kinds.contains call && spared ≤ (made.filter kinds.contains).length then
      .failBefore
    else .pass
  made := []

/-- The state below the store. -/
structure Engine where
  table : Table
  faults : Option FaultPlan

/-- A computation of the store: it may fail, and keeps the rows it wrote. -/
abbrev StoreM (α : Type) := ExceptT StoreError (StateM Engine) α

namespace Engine

/-- An engine without failures over the given rows. -/
def ofTable (table : Table) : Engine := ⟨table, none⟩

/-- What becomes of the next call. -/
def verdict (engine : Engine) (call : Call) : Verdict :=
  match engine.faults with
  | none => .pass
  | some plan => plan.verdict plan.made call

/-- Notes that a call was made. -/
def record (engine : Engine) (call : Call) : Engine :=
  { engine with
    faults := engine.faults.map fun plan => { plan with made := call :: plan.made } }

/-- Makes a call with the given effect on the table. -/
def perform {α : Type} (call : Call) (effect : Table → α × Table) : StoreM α :=
  ExceptT.mk fun engine =>
    let (result, table) := effect engine.table
    let recorded := engine.record call
    match engine.verdict call with
    | .pass => (.ok result, { recorded with table })
    | .failBefore => (.error (.io .injected), recorded)
    | .failAfter => (.error (.io .injected), { recorded with table })

/-! ## The calls -/

/-- The contents at a key. -/
def get (key : Bytes) : StoreM (Option Bytes) :=
  perform .get fun table => (table.get? key, table)

/-- Writes the contents at a key. -/
def set (key contents : Bytes) : StoreM Unit :=
  perform .set fun table => ((), table.insert key contents)

/-- Removes a key; an absent key is no failure. -/
def delete (key : Bytes) : StoreM Unit :=
  perform .delete fun table => ((), table.erase key)

/-- Shows the rows under a stem to a visitor, in key order, until it stops. -/
def visitUnder {σ : Type} (stem : Bytes) (visit : σ → Row → σ × Table.Visit)
    (start : σ) : StoreM σ :=
  perform .scan fun table => (Table.visitRows visit start (table.rowsUnder stem), table)

/-- All rows under a stem, in key order. -/
def scan (stem : Bytes) : StoreM (List Row) :=
  perform .scan fun table => (table.rowsUnder stem, table)

/-- Makes all writes durable. -/
def flush : StoreM Unit :=
  perform .flush fun table => ((), table)

/-! ## Calls that do not fail -/

/-- Without planned failures a read answers what the table holds. -/
@[simp]
theorem run_get (table : Table) (key : Bytes) :
    (get key).run (ofTable table) = (.ok (table.get? key), ofTable table) := rfl

/-- Without planned failures a row is written. -/
@[simp]
theorem run_set (table : Table) (key contents : Bytes) :
    (set key contents).run (ofTable table) =
      (.ok (), ofTable (table.insert key contents)) := rfl

/-- Without planned failures a row is removed. -/
@[simp]
theorem run_delete (table : Table) (key : Bytes) :
    (delete key).run (ofTable table) = (.ok (), ofTable (table.erase key)) := rfl

/-- Without planned failures a scan answers all rows under the stem. -/
@[simp]
theorem run_scan (table : Table) (stem : Bytes) :
    (scan stem).run (ofTable table) = (.ok (table.rowsUnder stem), ofTable table) := rfl

end Engine
end StructuredStore
