import StructuredStore.Proofs.Engine.Stopping

/-!
# Computations that are broken off

When a call fails, a computation of the store ends there and keeps the rows it
has written.  What is known of such an end is which tables the computation
passes through on its way: the stages.  Stages are collected step by step along
the run without failures, since up to the failing call a broken run is that
run.

Main results:

- `Runs.bind`, `Runs.perform`: the stages of a sequence and of a call.
- `Steady.runs`: a computation that writes nothing has one stage.
- `Runs.stage`: whichever calls fail, the rows that are left are a stage.
-/

namespace StructuredStore.Engine

variable {α β : Type} {stage : Table → Prop} {table between after : Table}

/-- Whether a computation that starts on the table ends without failures as
given, and, when a call fails, breaks off with an error at a stage. -/
structure Runs (stage : Table → Prop) (table : Table) (action : StoreM α)
    (outcome : Except StoreError α) (after : Table) : Prop where
  run : action.run (ofTable table) = (outcome, ofTable after)
  broken : ∀ plan : FaultPlan,
    (∃ left : FaultPlan, action.run ⟨table, some plan⟩ = (outcome, ⟨after, some left⟩)) ∨
      ∃ e left, action.run ⟨table, some plan⟩ = (.error e, left) ∧ stage left.table

namespace Runs

/-! ## Rules -/

protected theorem pure (a : α) : Runs stage table (pure a) (.ok a) table :=
  ⟨rfl, fun plan => Or.inl ⟨plan, rfl⟩⟩

protected theorem throw (e : StoreError) : Runs stage table (throw e : StoreM α) (.error e) table :=
  ⟨rfl, fun plan => Or.inl ⟨plan, rfl⟩⟩

/-- A failing call leaves the table it was made on, or what it made of it. -/
theorem perform {call : Call} {effect : Table → α × Table} (hbefore : stage table)
    (hafter : stage (effect table).2) :
    Runs stage table (perform call effect) (.ok (effect table).1) (effect table).2 := by
  constructor
  · rfl
  · intro plan
    simp only [Engine.perform, ExceptT.run, ExceptT.mk, verdict, record]
    cases plan.verdict plan.made call with
    | pass => exact Or.inl ⟨_, rfl⟩
    | failBefore => exact Or.inr ⟨_, _, rfl, hbefore⟩
    | failAfter => exact Or.inr ⟨_, _, rfl, hafter⟩

/-- A read stands in the stage it starts in. -/
protected theorem get (h : stage table) (key : Bytes) :
    Runs stage table (get key) (.ok (table.get? key)) table :=
  perform h h

/-- A write passes from one stage to the next. -/
protected theorem set {key contents : Bytes} (hbefore : stage table)
    (hafter : stage (table.insert key contents)) :
    Runs stage table (set key contents) (.ok ()) (table.insert key contents) :=
  perform hbefore hafter

/-- A deletion passes from one stage to the next. -/
protected theorem delete {key : Bytes} (hbefore : stage table)
    (hafter : stage (table.erase key)) :
    Runs stage table (delete key) (.ok ()) (table.erase key) :=
  perform hbefore hafter

/-- A sequence passes through the stages of its steps. -/
protected theorem bind {first : StoreM α} {next : α → StoreM β} {a : α}
    {outcome : Except StoreError β} (hfirst : Runs stage table first (.ok a) between)
    (hnext : Runs stage between (next a) outcome after) :
    Runs stage table (first >>= next) outcome after := by
  constructor
  · exact (run_bind_ok hfirst.run).trans hnext.run
  · intro plan
    obtain ⟨left, hrun⟩ | ⟨e, left, hrun, hstage⟩ := hfirst.broken plan
    · rw [run_bind_ok hrun]
      exact hnext.broken left
    · exact Or.inr ⟨e, left, run_bind_error hrun, hstage⟩

/-- A sequence ends with the failure of its first step. -/
theorem bind_error {first : StoreM α} {next : α → StoreM β} {e : StoreError}
    (hfirst : Runs stage table first (.error e) after) :
    Runs stage table (first >>= next) (.error e) after := by
  constructor
  · exact run_bind_error hfirst.run
  · intro plan
    obtain ⟨left, hrun⟩ | ⟨e', left, hrun, hstage⟩ := hfirst.broken plan
    · exact Or.inl ⟨left, run_bind_error hrun⟩
    · exact Or.inr ⟨e', left, run_bind_error hrun, hstage⟩

protected theorem map {action : StoreM α} {outcome : Except StoreError α} (f : α → β)
    (h : Runs stage table action outcome after) :
    Runs stage table (f <$> action) (outcome.map f) after := by
  constructor
  · rw [run_map, h.run]
  · intro plan
    obtain ⟨left, hrun⟩ | ⟨e, left, hrun, hstage⟩ := h.broken plan
    · exact Or.inl ⟨left, by rw [run_map, hrun]⟩
    · exact Or.inr ⟨e, left, by rw [run_map, hrun]; rfl, hstage⟩

/-- A run that stays in some stages stays in any larger choice of them. -/
theorem mono {more : Table → Prop} {action : StoreM α} {outcome : Except StoreError α}
    (h : Runs stage table action outcome after) (hmore : ∀ t, stage t → more t) :
    Runs more table action outcome after := by
  constructor
  · exact h.run
  · intro plan
    obtain hrun | ⟨e, left, hrun, hstage⟩ := h.broken plan
    · exact Or.inl hrun
    · exact Or.inr ⟨e, left, hrun, hmore _ hstage⟩

/-- Whichever calls fail, the rows that are left are a stage, if those at the
end are one. -/
protected theorem stage {action : StoreM α} {outcome : Except StoreError α}
    (h : Runs stage table action outcome after) (hafter : stage after) (plan : FaultPlan) :
    stage (action.run ⟨table, some plan⟩).2.table := by
  obtain ⟨left, hrun⟩ | ⟨e, left, hrun, hstage⟩ := h.broken plan
  · rw [hrun]
    exact hafter
  · rw [hrun]
    exact hstage

end Runs

/-! ## Computations that write nothing -/

/-- Whether a computation writes nothing and breaks off at its first failing
call. -/
def Steady (action : StoreM α) : Prop :=
  ∀ table : Table, ∃ outcome, Runs (fun t => t = table) table action outcome table ∧
    Stops (fun _ left => left = table) table action outcome table

namespace Steady

protected theorem pure (a : α) : Steady (pure a : StoreM α) :=
  fun _ => ⟨_, .pure a, .pure a⟩

protected theorem throw (e : StoreError) : Steady (throw e : StoreM α) :=
  fun _ => ⟨_, .throw e, .throw e⟩

protected theorem get (key : Bytes) : Steady (get key) :=
  fun _ => ⟨_, .get (by rfl) key, .get (by rfl) key⟩

protected theorem bind {first : StoreM α} {next : α → StoreM β} (hfirst : Steady first)
    (hnext : ∀ a, Steady (next a)) : Steady (first >>= next) := by
  intro table
  obtain ⟨outcome, hruns, hstops⟩ := hfirst table
  cases outcome with
  | error e => exact ⟨_, hruns.bind_error, hstops.bind_error⟩
  | ok a =>
      obtain ⟨outcome, hruns', hstops'⟩ := hnext a table
      exact ⟨_, hruns.bind hruns', hstops.bind hstops'⟩

protected theorem ite {c : Prop} [Decidable c] {yes no : StoreM α} (hyes : Steady yes)
    (hno : Steady no) : Steady (if c then yes else no) := by
  split
  · exact hyes
  · exact hno

/-- A check that may end the computation. -/
protected theorem guard {c : Prop} [Decidable c] {e : StoreError} {next : α → StoreM β}
    {go : StoreM β} (h : Steady go) : Steady (if c then throw e >>= next else go) :=
  .ite (.throw e) h

/-- The only stage of a computation that writes nothing is its table. -/
theorem runs {action : StoreM α} (h : Steady action) (hstage : stage table)
    {outcome : Except StoreError α}
    (hrun : action.run (ofTable table) = (outcome, ofTable table)) :
    Runs stage table action outcome table := by
  obtain ⟨outcome', hsteady, _⟩ := h table
  have hsame := hsteady.run
  rw [hrun] at hsame
  cases hsame
  exact hsteady.mono fun t ht => ht ▸ hstage

end Steady
end StructuredStore.Engine
