import StructuredStore.Proofs.Engine.Outcome

/-!
# Computations that are refused

Without planned failures a computation fails only where one of its checks does.
If all checks stand before the first write, a computation that fails has written
nothing; behind a write may only stand steps that succeed on every table.  A step
that breaks off is not refused: what it has written stays.

Main results:

- `Sure.bind`: steps that succeed, one after the other.
- `Unrefused.bind`: steps that succeed or break off.
- `Refuses.bind_finds`, `Refuses.bind_sure`: a check in front of a computation,
  and steps that succeed behind it.
-/

namespace StructuredStore.Engine

variable {α β : Type}

/-! ## Computations that succeed -/

/-- Whether a computation succeeds on every table. -/
def Sure (action : StoreM α) : Prop :=
  ∀ table, Ends table action fun outcome _ => ∃ a, outcome = .ok a

namespace Sure

/-- A command that ends well on every table, and does the same there each time, is
sure. -/
theorem of_run {action : StoreM α}
    (h : ∀ table, ∃ a after, action.run (ofTable table) = (.ok a, ofTable after)) :
    Sure action := by
  intro table
  obtain ⟨a, after, hrun⟩ := h table
  exact .of_run hrun ⟨a, rfl⟩

protected theorem pure (a : α) : Sure (pure a : StoreM α) :=
  fun _ => .pure ⟨a, rfl⟩

protected theorem get (key : Bytes) : Sure (get key) :=
  .of_run fun table => ⟨_, table, run_get table key⟩

protected theorem set (key contents : Bytes) : Sure (set key contents) :=
  .of_run fun table => ⟨_, _, run_set table key contents⟩

protected theorem delete (key : Bytes) : Sure (delete key) :=
  .of_run fun table => ⟨_, _, run_delete table key⟩

/-- Sure commands compose: neither half can be refused. -/
protected theorem bind {first : StoreM α} {next : α → StoreM β} (hfirst : Sure first)
    (hnext : ∀ a, Sure (next a)) : Sure (first >>= next) := by
  intro table
  apply Ends.bind (hfirst table)
  · rintro e between ⟨_, heq⟩
    cases heq
  · intro a between _
    exact hnext a between

end Sure

/-! ## Computations that are never refused -/

/-- Whether a computation succeeds or breaks off, on every table. -/
def Unrefused (action : StoreM α) : Prop :=
  ∀ table, Ends table action fun outcome _ => ∀ e, outcome = .error e → ∃ cause, e = .aborted cause

/-- What succeeds is never refused. -/
theorem Sure.unrefused {action : StoreM α} (h : Sure action) : Unrefused action := by
  intro table
  apply (h table).conseq
  rintro outcome after ⟨a, rfl⟩ e heq
  cases heq

namespace Unrefused

/-- Breaking off is not a refusal. -/
protected theorem abort (cause : Abort) : Unrefused (throw (.aborted cause) : StoreM α) :=
  fun _ => .throw fun _ heq => ⟨cause, (Except.error.inj heq).symm⟩

/-- What answers at once or breaks off at once is no refusal. -/
theorem of_cases {action : StoreM α}
    (h : (∃ a, action = pure a) ∨ ∃ cause, action = throw (.aborted cause)) :
    Unrefused action := by
  rcases h with ⟨a, rfl⟩ | ⟨cause, rfl⟩
  · exact (Sure.pure a).unrefused
  · exact .abort cause

/-- What never refuses composes. -/
protected theorem bind {first : StoreM α} {next : α → StoreM β} (hfirst : Unrefused first)
    (hnext : ∀ a, Unrefused (next a)) : Unrefused (first >>= next) := by
  intro table
  apply Ends.bind (hfirst table)
  · intro e between hbroken e' heq
    cases heq
    exact hbroken e rfl
  · intro a between _
    exact hnext a between

end Unrefused

/-! ## Computations that fail -/

/-- Whether a computation that starts on the table and fails leaves the table as
it was, or with a failure and a table as described. -/
def Refuses (spoilt : StoreError → Table → Prop) (table : Table) (action : StoreM α) : Prop :=
  Ends table action fun outcome after => ∀ e, outcome = .error e → after = table ∨ spoilt e after

namespace Refuses

variable {spoilt : StoreError → Table → Prop} {table : Table}

/-- A command that cannot fail refuses nothing, whatever counts as spoilt. -/
theorem of_sure {action : StoreM α} (h : Sure action) : Refuses spoilt table action := by
  apply (h table).conseq
  rintro outcome after ⟨a, rfl⟩ e heq
  cases heq

/-- What is never refused fails only by breaking off. -/
theorem of_unrefused {action : StoreM α} (h : Unrefused action)
    (hbroken : ∀ cause after, spoilt (.aborted cause) after) : Refuses spoilt table action := by
  apply (h table).conseq
  intro outcome after hafter e heq
  obtain ⟨cause, rfl⟩ := hafter e heq
  exact Or.inr (hbroken cause after)

/-- A command that only reads may be refused: it has written nothing by then. -/
theorem of_readOnly {action : StoreM α} (h : ReadOnly action) : Refuses spoilt table action :=
  Ends.of_readOnly h fun _ _ _ => Or.inl rfl

protected theorem pure (a : α) : Refuses spoilt table (pure a) :=
  .of_sure (.pure a)

protected theorem throw (e : StoreError) : Refuses spoilt table (throw e : StoreM α) :=
  Ends.throw fun _ _ => Or.inl rfl

/-- A check that may end the computation. -/
protected theorem guard {c : Prop} [Decidable c] {e : StoreError} {next : α → StoreM β}
    {go : StoreM β} (h : ¬ c → Refuses spoilt table go) :
    Refuses spoilt table (if c then throw e >>= next else go) :=
  Ends.guard (fun _ _ _ => Or.inl rfl) h

/-- A choice refuses cleanly when both branches do. -/
protected theorem ite {c : Prop} [Decidable c] {yes no : StoreM α}
    (hyes : Refuses spoilt table yes) (hno : Refuses spoilt table no) :
    Refuses spoilt table (if c then yes else no) := by
  split
  · exact hyes
  · exact hno

protected theorem map {action : StoreM α} (f : α → β) (h : Refuses spoilt table action) :
    Refuses spoilt table (f <$> action) := by
  apply Ends.map f
  apply h.conseq
  intro outcome after hafter e heq
  cases outcome with
  | error e' =>
      cases heq
      exact hafter e rfl
  | ok a => cases heq

/-- A read in front of a computation, with what is known of its answer. -/
theorem bind_finds {found : α → Prop} {first : StoreM α} {next : α → StoreM β}
    (hfirst : Ends table first fun outcome after => after = table ∧
      ∀ a, outcome = .ok a → found a)
    (hnext : ∀ a, found a → Refuses spoilt table (next a)) :
    Refuses spoilt table (first >>= next) := by
  apply Ends.bind hfirst
  · rintro e between ⟨rfl, _⟩ _ _
    exact Or.inl rfl
  · rintro a between ⟨rfl, hfound⟩
    exact hnext a (hfound a rfl)

/-- Reading first costs nothing: a refusal while reading leaves the rows alone. -/
theorem bind_readOnly {first : StoreM α} {next : α → StoreM β} (hfirst : ReadOnly first)
    (hnext : ∀ a, Refuses spoilt table (next a)) : Refuses spoilt table (first >>= next) :=
  Ends.bind_readOnly hfirst (fun _ _ _ => Or.inl rfl) hnext

/-- Steps that succeed behind a computation. -/
theorem bind_sure {first : StoreM α} {next : α → StoreM β} (hfirst : Refuses spoilt table first)
    (hnext : ∀ a, Sure (next a)) : Refuses spoilt table (first >>= next) := by
  apply Ends.bind hfirst
  · intro e between hspoilt e' heq
    cases heq
    exact hspoilt e rfl
  · intro a between _
    apply (hnext a between).conseq
    rintro outcome after ⟨b, rfl⟩ e heq
    cases heq

end Refuses
end StructuredStore.Engine
