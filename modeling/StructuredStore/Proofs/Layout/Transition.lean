import StructuredStore.Proofs.Expiry.Due
import StructuredStore.Proofs.Expiry.Slices

/-!
# What an operation does to a store

An operation on a consistent store does one of three things: it changes one key,
it sets the expiry of one, or it sweeps.  What holds in every reachable state is
shown for each of them once.

Main results:

- `Transition`: the three things, and what each leads to.
- `Consistent.ends_operation`: every operation does one of them.
-/

namespace StructuredStore

open Engine Store

/-- What an operation leads to from a consistent store; `names` says which names
each bucket lists before. -/
inductive Transition (table : Table) (steps : Nat) (names : Int64 → List String)
    (width : BucketWidth) (op : Operation) (after : Table) : Prop where
  /-- At most one key changes, and no expiry is set. -/
  | keep (h : Consistent after (steps + 1) names)
      (hexpiry : ∀ key, Key.ColonFree key →
        after.expiryOf key = table.expiryOf key ∨ after.expiryOf key = none)
  /-- A key may have a new expiry, which lies in a leap second only if it was given
  so. -/
  | schedule {key : String} {instant : Instant} (hkey : op.key? = some key)
      (hinstant : op = .expireAt key instant ∨ instant.IsRegular)
      (h : Scheduled table steps names key width instant after)
  /-- Keys whose expiry has come are removed. -/
  | sweep {now : Instant} {swept : List Int64}
      (hswept : ∀ seconds, names seconds ≠ [] →
        seconds.toInt ≤ (Int64.ofInt (width.ceil now)).toInt → seconds ∈ swept)
      (h : Consistent after steps (Expiry.sweptNames width now table swept names))
      (hremoves : Expiry.Removes table (fun key => (∃ seconds ∈ swept, key ∈ names seconds) ∧
        Expiry.hasCome now (table.expiryOf key) = true) after)

namespace Transition

variable {table after : Table} {steps : Nat} {names : Int64 → List String} {width : BucketWidth}
  {op : Operation}

/-- Whatever an operation does, the store stays consistent. -/
theorem exists_consistent (h : Transition table steps names width op after) :
    ∃ names', Consistent after (steps + 1) names' := by
  cases h with
  | keep h => exact ⟨names, h⟩
  | schedule _ _ h =>
      rcases h with ⟨names', hconsistent, _⟩
      exact ⟨names', hconsistent⟩
  | sweep _ h => exact ⟨_, h.mono (Nat.le_succ steps)⟩

end Transition

namespace Consistent

variable {table : Table} {steps : Nat} {names : Int64 → List String}

theorem transition_same (h : Consistent table steps names) (width : BucketWidth)
    (op : Operation) : Transition table steps names width op table :=
  .keep (h.mono (Nat.le_succ steps)) fun _ _ => Or.inl rfl

theorem ends_sweep_transition (h : Consistent table steps names)
    (hsteps : steps < 9223372036854775808) (width : BucketWidth) (now : Instant) (op : Operation) :
    Ends table (Reply.sweep <$> Expiry.sweep width now) fun _ after =>
      Transition table steps names width op after := by
  refine .map _ ((h.ends_sweep hsteps width now).conseq ?_)
  rintro outcome after ⟨_, swept, hswept, hafter, hremoves⟩
  exact .sweep hswept hafter hremoves

/-- Every operation on a key without colon, and every sweep, does one of the
three things, at any time outside leap seconds. -/
theorem ends_operation (h : Consistent table steps names)
    (hsteps : steps + 1 < 9223372036854775808) {env : Environment} (hnow : env.now.IsRegular)
    {op : Operation} (hkey : ∀ key, op.key? = some key → Key.ColonFree key) :
    Ends table (op.perform env) fun _ after =>
      Transition table steps names env.width op after := by
  by_cases hschedules : op.schedules = true
  · cases op with
    | expireAt key instant =>
        refine .map _ ((h.ends_setAt hsteps (hkey key rfl) env.width env.now instant).conseq ?_)
        intro outcome after hafter
        exact .schedule rfl (Or.inl rfl) hafter
    | expireIn key span =>
        refine .map _ ?_
        unfold Expiry.setIn
        cases hinstant : env.now.add? span with
        | none => exact .throw (h.transition_same env.width _)
        | some instant =>
            refine (h.ends_setAt hsteps (hkey key rfl) env.width env.now instant).conseq ?_
            intro outcome after hafter
            exact .schedule rfl (Or.inr (hnow.of_add? hinstant)) hafter
    | _ => cases hschedules
  · have hschedules : op.schedules = false := by simpa using hschedules
    cases hop : op.key? with
    | some key =>
        refine (h.ends_perform hsteps env hop (hkey key hop) hschedules).conseq ?_
        rintro outcome after ⟨hafter, hagree, hexpiry⟩
        refine .keep hafter fun other hother => ?_
        by_cases hsame : other = key
        · subst hsame
          exact hexpiry
        · exact Or.inl (Table.expiryOf_congr
            (hagree.other (Or.inl (hkey key hop)) (Or.inl hother) hsame _ (.self other)))
    | none =>
        cases op with
        | flush => exact .of_run rfl (h.transition_same env.width _)
        | sweep now => exact h.ends_sweep_transition (by omega) env.width now _
        | sweepNow => exact h.ends_sweep_transition (by omega) env.width env.now _
        | _ => cases hop

end Consistent
end StructuredStore
