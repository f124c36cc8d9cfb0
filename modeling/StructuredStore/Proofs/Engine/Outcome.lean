import StructuredStore.Proofs.Engine.Execution

/-!
# How a computation ends

Without planned failures a computation that starts on a table ends with an
outcome and a table.  What is known of the two is put together step by step:
one rule for each call, and one for a sequence.

Main results:

- `Ends.bind`: a sequence ends as its second step does, or as its first one if
  that fails.
- `Ends.conseq`, `Ends.confined`: weakening, and what a confined computation
  leaves alone.
-/

namespace StructuredStore.Engine

variable {α β : Type}

/-- Whether a computation that starts on the table, without planned failures,
ends without them, and with an outcome and a table as described. -/
def Ends (table : Table) (action : StoreM α) (post : Except StoreError α → Table → Prop) :
    Prop :=
  ∃ outcome after, action.run (ofTable table) = (outcome, ofTable after) ∧ post outcome after

namespace Ends

variable {table : Table} {post : Except StoreError α → Table → Prop}

/-! ## Rules -/

theorem of_run {action : StoreM α} {outcome : Except StoreError α} {after : Table}
    (hrun : action.run (ofTable table) = (outcome, ofTable after)) (h : post outcome after) :
    Ends table action post :=
  ⟨outcome, after, hrun, h⟩

theorem conseq {action : StoreM α} {pre : Except StoreError α → Table → Prop}
    (h : Ends table action pre) (hpost : ∀ outcome after, pre outcome after → post outcome after) :
    Ends table action post := by
  obtain ⟨outcome, after, hrun, hpre⟩ := h
  exact ⟨outcome, after, hrun, hpost outcome after hpre⟩

protected theorem pure {a : α} (h : post (.ok a) table) : Ends table (pure a) post :=
  of_run rfl h

protected theorem throw {e : StoreError} (h : post (.error e) table) :
    Ends table (throw e) post :=
  of_run rfl h

/-- A sequence ends as its second step does on what the first one leaves, or
with the first one's failure. -/
protected theorem bind {first : StoreM α} {next : α → StoreM β}
    {mid : Except StoreError α → Table → Prop} {post : Except StoreError β → Table → Prop}
    (hfirst : Ends table first mid)
    (herror : ∀ e between, mid (.error e) between → post (.error e) between)
    (hok : ∀ a between, mid (.ok a) between → Ends between (next a) post) :
    Ends table (first >>= next) post := by
  obtain ⟨outcome, between, hrun, hmid⟩ := hfirst
  cases outcome with
  | error e => exact of_run (run_bind_error hrun) (herror e between hmid)
  | ok a =>
      obtain ⟨outcome, after, hnext, hpost⟩ := hok a between hmid
      exact of_run ((run_bind_ok hrun).trans hnext) hpost

/-- A first step that succeeds. -/
theorem bind_ok {first : StoreM α} {next : α → StoreM β} {mid : Table → Prop}
    {post : Except StoreError β → Table → Prop}
    (hfirst : Ends table first fun outcome between => (∃ a, outcome = .ok a) ∧ mid between)
    (hok : ∀ a between, mid between → Ends between (next a) post) :
    Ends table (first >>= next) post := by
  obtain ⟨_, between, hrun, ⟨a, rfl⟩, hmid⟩ := hfirst
  obtain ⟨outcome, after, hnext, hpost⟩ := hok a between hmid
  exact of_run ((run_bind_ok hrun).trans hnext) hpost

/-- A first step that succeeds, with what is known of its answer. -/
theorem bind_answer {first : StoreM α} {next : α → StoreM β} {mid : α → Table → Prop}
    {post : Except StoreError β → Table → Prop}
    (hfirst : Ends table first fun outcome between => ∃ a, outcome = .ok a ∧ mid a between)
    (hok : ∀ a between, mid a between → Ends between (next a) post) :
    Ends table (first >>= next) post := by
  obtain ⟨_, between, hrun, a, rfl, hmid⟩ := hfirst
  obtain ⟨outcome, after, hnext, hpost⟩ := hok a between hmid
  exact of_run ((run_bind_ok hrun).trans hnext) hpost

/-- A first step that succeeds with a known answer. -/
theorem bind_run {first : StoreM α} {next : α → StoreM β} {between : Table} {a : α}
    {post : Except StoreError β → Table → Prop}
    (hrun : first.run (ofTable table) = (.ok a, ofTable between))
    (h : Ends between (next a) post) : Ends table (first >>= next) post := by
  obtain ⟨outcome, after, hnext, hpost⟩ := h
  exact of_run ((run_bind_ok hrun).trans hnext) hpost

/-- A first step that fails. -/
theorem bind_error {first : StoreM α} {next : α → StoreM β} {between : Table} {e : StoreError}
    {post : Except StoreError β → Table → Prop}
    (hrun : first.run (ofTable table) = (.error e, ofTable between))
    (h : post (.error e) between) : Ends table (first >>= next) post :=
  of_run (run_bind_error hrun) h

/-- A check that may end the computation. -/
protected theorem guard {c : Prop} [Decidable c] {e : StoreError} {next : α → StoreM β}
    {go : StoreM β} {post : Except StoreError β → Table → Prop} (hfail : c → post (.error e) table)
    (h : ¬ c → Ends table go post) : Ends table (if c then throw e >>= next else go) post := by
  by_cases hc : c
  · rw [if_pos hc]
    exact .throw (hfail hc)
  · rw [if_neg hc]
    exact h hc

protected theorem map {action : StoreM α} (f : α → β)
    {post : Except StoreError β → Table → Prop}
    (h : Ends table action fun outcome after => post (outcome.map f) after) :
    Ends table (f <$> action) post := by
  obtain ⟨outcome, after, hrun, hpost⟩ := h
  exact of_run (by rw [run_map, hrun]) hpost

/-- What writes nothing ends on the table it started on. -/
theorem of_readOnly {action : StoreM α} (h : ReadOnly action)
    (hpost : ∀ outcome, post outcome table) : Ends table action post := by
  obtain ⟨outcome, hrun⟩ := h.run_ofTable table
  exact of_run hrun (hpost outcome)

/-- A first step that writes nothing. -/
theorem bind_readOnly {first : StoreM α} {next : α → StoreM β}
    {post : Except StoreError β → Table → Prop} (hfirst : ReadOnly first)
    (herror : ∀ e, post (.error e) table) (hok : ∀ a, Ends table (next a) post) :
    Ends table (first >>= next) post := by
  rcases hfirst.run_ofTable table with ⟨outcome, hrun⟩
  cases outcome with
  | error e => exact bind_error hrun (herror e)
  | ok a => exact bind_run hrun (hok a)

/-- A computation ends in one way only. -/
protected theorem and {action : StoreM α} {post' : Except StoreError α → Table → Prop}
    (h : Ends table action post) (h' : Ends table action post') :
    Ends table action fun outcome after => post outcome after ∧ post' outcome after := by
  obtain ⟨outcome, after, hrun, hpost⟩ := h
  obtain ⟨_, _, hrun', hpost'⟩ := h'
  cases hrun.symm.trans hrun'
  exact of_run hrun ⟨hpost, hpost'⟩

/-- A confined computation leaves all other keys alone. -/
theorem confined {keys : Bytes → Prop} {action : StoreM α} (hconfined : Confined keys action)
    (h : Ends table action post) :
    Ends table action fun outcome after => post outcome after ∧ table.AgreeOff keys after := by
  obtain ⟨outcome, after, hrun, hpost⟩ := h
  obtain ⟨_, _, hrun', hagree⟩ := hconfined.run_ofTable table
  rw [hrun] at hrun'
  cases hrun'
  exact of_run hrun ⟨hpost, hagree⟩

end Ends
end StructuredStore.Engine
