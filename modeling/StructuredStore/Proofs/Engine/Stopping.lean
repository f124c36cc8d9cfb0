import StructuredStore.Proofs.Engine.Execution

/-!
# Computations that a failing call stops

A call that fails and does nothing stops a computation where it stands.  What
the computation leaves then depends on the call that failed: the same rows may
be a safe place to stop before one call and an unsafe one before another.  The
places are collected along the run without failures, each with its call.

Main results:

- `Stops.bind`, `Stops.perform`: the places of a sequence and of a call.
-/

namespace StructuredStore

/-- Whether each failing call of a plan leaves the table as it was. -/
def FaultPlan.Inert (plan : FaultPlan) : Prop :=
  ∀ made call, plan.verdict made call ≠ .failAfter

theorem FaultPlan.inert_after (kinds : List Call) (spared : Nat) :
    (FaultPlan.after kinds spared).Inert := by
  intro made call
  simp only [FaultPlan.after]
  split <;> exact Verdict.noConfusion

namespace Engine

variable {α β : Type} {place : Call → Table → Prop} {table between after : Table}

/-- Whether a run under the plan was stopped by a failing call that found the
given table. -/
def StoppedAt (plan : FaultPlan) (call : Call) (left : Table)
    (result : Except StoreError α × Engine) : Prop :=
  ∃ made, plan.verdict made call = .failBefore ∧
    result = (.error (.io .injected), ⟨left, some { plan with made := call :: made }⟩)

/-- Whether a computation that starts on the table ends without failures as
given, and, when a call fails without effect, stops at one of the places. -/
structure Stops (place : Call → Table → Prop) (table : Table) (action : StoreM α)
    (outcome : Except StoreError α) (after : Table) : Prop where
  run : action.run (ofTable table) = (outcome, ofTable after)
  stopped : ∀ plan : FaultPlan, plan.Inert →
    (∃ made, action.run ⟨table, some plan⟩ = (outcome, ⟨after, some { plan with made }⟩)) ∨
      ∃ call left, StoppedAt plan call left (action.run ⟨table, some plan⟩) ∧ place call left

namespace Stops

protected theorem pure (a : α) : Stops place table (pure a) (.ok a) table :=
  ⟨rfl, fun plan _ => Or.inl ⟨plan.made, rfl⟩⟩

protected theorem throw (e : StoreError) :
    Stops place table (throw e : StoreM α) (.error e) table :=
  ⟨rfl, fun plan _ => Or.inl ⟨plan.made, rfl⟩⟩

/-- A failing call is a place to stop on the table that it found. -/
theorem perform {call : Call} {effect : Table → α × Table} (h : place call table) :
    Stops place table (perform call effect) (.ok (effect table).1) (effect table).2 := by
  constructor
  · rfl
  · intro plan hinert
    simp only [Engine.perform, ExceptT.run, ExceptT.mk, verdict, record]
    cases hverdict : plan.verdict plan.made call with
    | pass => exact Or.inl ⟨call :: plan.made, rfl⟩
    | failBefore => exact Or.inr ⟨call, table, ⟨plan.made, hverdict, rfl⟩, h⟩
    | failAfter => exact absurd hverdict (hinert _ _)

protected theorem get (h : place .get table) (key : Bytes) :
    Stops place table (get key) (.ok (table.get? key)) table :=
  perform h

/-- A row that is known to be there or not. -/
theorem get_eq {key : Bytes} {found : Option Bytes} (hget : table.get? key = found)
    (h : place .get table) : Stops place table (Engine.get key) (.ok found) table :=
  hget ▸ .get h key

protected theorem scan (h : place .scan table) (stem : Bytes) :
    Stops place table (scan stem) (.ok (table.rowsUnder stem)) table :=
  perform h

protected theorem set (h : place .set table) (key contents : Bytes) :
    Stops place table (set key contents) (.ok ()) (table.insert key contents) :=
  perform h

protected theorem delete (h : place .delete table) (key : Bytes) :
    Stops place table (delete key) (.ok ()) (table.erase key) :=
  perform h

/-- A sequence stops at the places of its steps. -/
protected theorem bind {first : StoreM α} {next : α → StoreM β} {a : α}
    {outcome : Except StoreError β} (hfirst : Stops place table first (.ok a) between)
    (hnext : Stops place between (next a) outcome after) :
    Stops place table (first >>= next) outcome after := by
  constructor
  · exact (run_bind_ok hfirst.run).trans hnext.run
  · intro plan hinert
    obtain ⟨made, hrun⟩ | ⟨call, left, ⟨made, hverdict, hrun⟩, hplace⟩ := hfirst.stopped plan hinert
    · -- The second step goes on under the same plan, which has made more calls.
      rw [run_bind_ok hrun]
      exact hnext.stopped { plan with made } hinert
    · exact Or.inr ⟨call, left, ⟨made, hverdict, run_bind_error hrun⟩, hplace⟩

/-- A sequence ends with the failure of its first step. -/
theorem bind_error {first : StoreM α} {next : α → StoreM β} {e : StoreError}
    (hfirst : Stops place table first (.error e) after) :
    Stops place table (first >>= next) (.error e) after := by
  constructor
  · exact run_bind_error hfirst.run
  · intro plan hinert
    obtain ⟨made, hrun⟩ | ⟨call, left, ⟨made, hverdict, hrun⟩, hplace⟩ := hfirst.stopped plan hinert
    · exact Or.inl ⟨made, run_bind_error hrun⟩
    · exact Or.inr ⟨call, left, ⟨made, hverdict, run_bind_error hrun⟩, hplace⟩

protected theorem map {action : StoreM α} {outcome : Except StoreError α} (f : α → β)
    (h : Stops place table action outcome after) :
    Stops place table (f <$> action) (outcome.map f) after := by
  constructor
  · rw [run_map, h.run]
  · intro plan hinert
    obtain ⟨made, hrun⟩ | ⟨call, left, ⟨made, hverdict, hrun⟩, hplace⟩ := h.stopped plan hinert
    · exact Or.inl ⟨made, by rw [run_map, hrun]⟩
    · exact Or.inr ⟨call, left, ⟨made, hverdict, by rw [run_map, hrun]; rfl⟩, hplace⟩

theorem mono {more : Call → Table → Prop} {action : StoreM α} {outcome : Except StoreError α}
    (h : Stops place table action outcome after)
    (hmore : ∀ call left, place call left → more call left) :
    Stops more table action outcome after := by
  refine ⟨h.run, fun plan hinert => ?_⟩
  obtain hrun | ⟨call, left, hstopped, hplace⟩ := h.stopped plan hinert
  · exact Or.inl hrun
  · exact Or.inr ⟨call, left, hstopped, hmore call left hplace⟩

end Stops
end Engine
end StructuredStore
