import StructuredStore.Expiry
import StructuredStore.Proofs.Engine.Endurance
import StructuredStore.Proofs.Engine.Outcome

/-!
# Failures that are only noted

A sweep notes the failure of a step and goes on with the next one.  What breaks a
step off is not noted but breaks off the sweep, so one has to know which steps
never do: settling a candidate and enlisting it again are such steps, since
neither sets up a buffer or takes an unchecked sum.

Main results:

- `Unbroken`: computations that never break off, with one rule for each way to
  put them together.
- `unbroken_settle`, `unbroken_enlist`: the steps of a sweep that never do.
- `run_attempt`, `ends_attempt_bind`, `endures_attempt_bind`: what a noted failure
  leads to.
-/

namespace StructuredStore

/-! ## Computations that do not break off -/

namespace Engine

variable {α β : Type}

/-- Whether a computation never breaks off, on whichever rows it starts and
whichever calls fail. -/
def Unbroken (action : StoreM α) : Prop :=
  ∀ engine cause, (action.run engine).1 ≠ .error (.aborted cause)

namespace Unbroken

protected theorem pure (a : α) : Unbroken (pure a : StoreM α) :=
  fun _ _ h => by cases h

/-- A failure of its own is no breaking off. -/
protected theorem throw {e : StoreError} (h : ∀ cause, e ≠ .aborted cause) :
    Unbroken (throw e : StoreM α) :=
  fun _ cause hrun => h cause (Except.error.inj hrun)

protected theorem bind {first : StoreM α} {next : α → StoreM β} (hfirst : Unbroken first)
    (hnext : ∀ a, Unbroken (next a)) : Unbroken (first >>= next) := by
  intro engine cause h
  have hbefore := hfirst engine cause
  rw [run_bind] at h
  rcases hrun : first.run engine with ⟨e | a, left⟩ <;> rw [hrun] at h hbefore
  · exact hbefore (congrArg Except.error (Except.error.inj h))
  · exact hnext a left cause h

protected theorem ite {c : Prop} [Decidable c] {yes no : StoreM α} (hyes : Unbroken yes)
    (hno : Unbroken no) : Unbroken (if c then yes else no) := by
  split
  · exact hyes
  · exact hno

/-- A check that may end the computation. -/
protected theorem guard {c : Prop} [Decidable c] {e : StoreError} {next : α → StoreM β}
    {go : StoreM β} (he : ∀ cause, e ≠ .aborted cause) (h : Unbroken go) :
    Unbroken (if c then throw e >>= next else go) :=
  .ite (.throw he) h

/-- A call of the engine that fails is no breaking off. -/
theorem perform (call : Call) (effect : Table → α × Table) : Unbroken (perform call effect) := by
  intro engine cause h
  rcases hrun : (Engine.perform call effect).run engine with ⟨e | a, left⟩ <;> rw [hrun] at h
  · rw [eq_injected_of_run_perform hrun] at h
    cases h
  · cases h

variable {table : Table} {action : StoreM α} {post : Except StoreError α → Table → Prop}

/-- However a computation ends that never breaks off, it has not broken off. -/
theorem ends (hunbroken : Unbroken action) (h : Ends table action post) :
    Ends table action fun outcome after =>
      post outcome after ∧ ∀ cause, outcome ≠ .error (.aborted cause) := by
  obtain ⟨outcome, after, hrun, hpost⟩ := h
  have hne := hunbroken (ofTable table)
  rw [hrun] at hne
  exact ⟨outcome, after, hrun, hpost, hne⟩

/-- Nor has it if calls fail. -/
theorem endures (hunbroken : Unbroken action) (h : Endures table action post) :
    Endures table action fun outcome after =>
      post outcome after ∧ ∀ cause, outcome ≠ .error (.aborted cause) :=
  ⟨fun faults => ⟨h.ends faults, hunbroken _⟩⟩

end Unbroken
end Engine

open Engine

/-! ## Steps of the store -/

namespace Store

theorem unbroken_lift {α : Type} (result : Except DataError α) : Unbroken (lift result) := by
  cases result with
  | error fault => exact .throw fun cause h => by cases fault <;> cases h
  | ok a => exact .pure a

theorem unbroken_read (key : Bytes) : Unbroken (read key) := by
  refine .bind (.perform _ _) fun found => ?_
  cases found with
  | none => exact .pure _
  | some bytes => exact .bind (unbroken_lift _) fun _ => .pure _

theorem unbroken_readAs (key : Bytes) (kind : Kind) : Unbroken (readAs key kind) := by
  refine .bind (.perform _ _) fun found => ?_
  cases found with
  | none => exact .throw nofun
  | some bytes => exact unbroken_lift _

theorem unbroken_write (key : Bytes) (value : Value) (expireAt : Option Instant) :
    Unbroken (write key value expireAt) :=
  .bind (unbroken_lift _) fun _ => .perform _ _

theorem unbroken_removeKeys (keys : List Bytes) : Unbroken (removeKeys keys) := by
  induction keys with
  | nil => exact .pure ()
  | cons key keys ih => exact .bind (.perform _ _) fun _ => ih

theorem unbroken_removeItems (key : String) (marker : Key.Marker) :
    Unbroken (removeItems key marker) :=
  .bind (.perform _ _) fun _ => unbroken_removeKeys _

theorem unbroken_removeIndices (key : String) (first : Int64) (count : Nat) :
    Unbroken (removeIndices key first count) := by
  induction count generalizing first with
  | zero => exact .pure ()
  | succ count ih => exact .bind (.perform _ _) fun _ => ih (first + 1)

/-- Whatever a value describes is removed without breaking off. -/
theorem unbroken_purge (key : String) (value : Value) : Unbroken (purge key value) := by
  have hself : Unbroken (Engine.delete (Key.ofText key)) := .perform _ _
  cases value with
  | list handle => exact .ite (.bind (unbroken_removeIndices key _ _) fun _ => hself) hself
  | map count => exact .bind (unbroken_removeItems key _) fun _ => hself
  | set count => exact .bind (unbroken_removeItems key _) fun _ => hself
  | series count => exact .bind (unbroken_removeItems key _) fun _ => hself
  | bloom handle => exact .bind (unbroken_removeItems key _) fun _ => hself
  | _ => exact hself

end Store

namespace Deque

/-- Pushing checks its sums. -/
theorem unbroken_push (key : String) (value : Value) (side : End) :
    Unbroken (push key value side) := by
  have hread : Unbroken (readHandle key) := by
    refine .bind (Store.unbroken_readAs _ _) fun frame => ?_
    split
    · exact .pure _
    · exact .throw nofun
  have hgrow : ∀ handle, Unbroken (grow handle side) := by
    intro handle
    refine .guard nofun ?_
    cases side with
    | left => exact .guard nofun (.pure _)
    | right => exact .guard nofun (.pure _)
  refine .bind hread fun found => .bind (hgrow _) fun grown => ?_
  refine .bind (Store.unbroken_write _ _ _) fun _ => ?_
  exact .bind (Store.unbroken_write _ _ _) fun _ => .pure _

/-- So does reading and removing items at their indices, which takes no sums. -/
theorem unbroken_drain (key : String) (index : Int64) (count : Nat) :
    Unbroken (drain key index count) := by
  induction count generalizing index with
  | zero => exact .pure []
  | succ count ih =>
      refine .bind (.bind (Store.unbroken_read _) fun _ => .pure _) fun item => ?_
      exact .bind (.perform _ _) fun _ => .bind (ih (index + 1)) fun _ => .pure _

theorem unbroken_pushRightCreating (key : String) (value : Value) :
    Unbroken (pushRightCreating key value) := by
  have hpush := unbroken_push key value .right
  refine .bind (Store.unbroken_read _) fun found => ?_
  exact .ite (.bind (Store.unbroken_write _ _ _) fun _ => hpush) hpush

end Deque

/-! ## Attempts -/

namespace Expiry

variable {α β : Type} {table : Table} {action : StoreM α} {next : Except StoreError α → StoreM β}

/-- Settling a candidate never breaks off. -/
theorem unbroken_settle (width : BucketWidth) (now : Instant) (bucket name : String) :
    Unbroken (settle width now bucket name) := by
  refine .bind (Store.unbroken_read _) fun found => ?_
  cases found with
  | none => exact .pure _
  | some frame =>
      obtain ⟨value, expireAt⟩ := frame
      cases expireAt with
      | none => exact .pure _
      | some instant =>
          refine .ite (.bind (Store.unbroken_purge name value) fun _ => .pure _) ?_
          exact .ite (.pure _) (.pure _)

/-- Listing a name never breaks off. -/
theorem unbroken_enlist (bucket name : String) : Unbroken (enlist bucket name) :=
  .bind (Deque.unbroken_pushRightCreating bucket _) fun _ => .pure _

/-- What breaks off a computation breaks off the attempt. -/
theorem run_attempt_of_aborted {engine left : Engine} {cause : Abort}
    (h : action.run engine = (.error (.aborted cause), left)) :
    (attempt action).run engine = (.error (.aborted cause), left) := by
  simp only [ExceptT.run] at h
  simp only [attempt, ExceptT.run, ExceptT.mk, bind, StateT.bind, h]
  rfl

/-- An attempt notes how its computation ends, if that does not break off. -/
theorem run_attempt_of_not_aborted {engine left : Engine} {outcome : Except StoreError α}
    (h : action.run engine = (outcome, left)) (hne : ∀ cause, outcome ≠ .error (.aborted cause)) :
    (attempt action).run engine = (.ok outcome, left) := by
  simp only [ExceptT.run] at h
  simp only [attempt, ExceptT.run, ExceptT.mk, bind, StateT.bind, h]
  cases outcome with
  | error e =>
      cases e with
      | aborted cause => exact absurd rfl (hne cause)
      | _ => rfl
  | ok a => rfl

/-- What never breaks off is noted however it ends. -/
theorem run_attempt_of_unbroken (h : Unbroken action) (engine : Engine) :
    (attempt action).run engine = (.ok (action.run engine).1, (action.run engine).2) :=
  run_attempt_of_not_aborted rfl (h engine)

/-- An attempt breaks off with its computation, or notes how that ended. -/
theorem run_attempt (action : StoreM α) (engine : Engine) :
    (∃ cause left, action.run engine = (.error (.aborted cause), left) ∧
        (attempt action).run engine = (.error (.aborted cause), left)) ∨
      (attempt action).run engine = (.ok (action.run engine).1, (action.run engine).2) := by
  by_cases h : ∃ cause, (action.run engine).1 = .error (.aborted cause)
  · obtain ⟨cause, hcause⟩ := h
    have hrun : action.run engine = (.error (.aborted cause), (action.run engine).2) :=
      Prod.ext hcause rfl
    exact Or.inl ⟨cause, _, hrun, run_attempt_of_aborted hrun⟩
  · exact Or.inr (run_attempt_of_not_aborted rfl (not_exists.mp h))

/-- A step behind one whose failure is only noted. -/
theorem ends_attempt_bind {mid : Except StoreError α → Table → Prop}
    {post : Except StoreError β → Table → Prop} (h : Ends table action mid)
    (haborted : ∀ cause between, mid (.error (.aborted cause)) between →
      post (.error (.aborted cause)) between)
    (hnext : ∀ result between, mid result between → Ends between (next result) post) :
    Ends table (attempt action >>= next) post := by
  obtain ⟨result, between, hrun, hmid⟩ := h
  obtain ⟨cause, left, hbroken, hattempt⟩ | hattempt := run_attempt action (ofTable table)
  · cases hrun.symm.trans hbroken
    exact .bind_error hattempt (haborted cause between hmid)
  · rw [hrun] at hattempt
    exact .bind_run hattempt (hnext result between hmid)

/-- A step behind one whose failure is only noted, whichever calls fail. -/
theorem endures_attempt_bind {mid : Except StoreError α → Table → Prop}
    {post : Except StoreError β → Table → Prop} (h : Endures table action mid)
    (haborted : ∀ cause between, mid (.error (.aborted cause)) between →
      post (.error (.aborted cause)) between)
    (hnext : ∀ result between, mid result between → Endures between (next result) post) :
    Endures table (attempt action >>= next) post := by
  constructor
  intro faults
  have hmid := h.ends faults
  obtain ⟨cause, left, hbroken, hattempt⟩ | hattempt := run_attempt action ⟨table, faults⟩
  · rw [hbroken] at hmid
    rw [run_bind_error hattempt]
    exact haborted cause left.table hmid
  · rw [run_bind_ok hattempt]
    exact (hnext _ _ hmid).ends _

/-- A step behind one that never breaks off. -/
theorem ends_unbroken_bind {mid : Except StoreError α → Table → Prop}
    {post : Except StoreError β → Table → Prop} (hunbroken : Unbroken action)
    (h : Ends table action mid)
    (hnext : ∀ result between, mid result between → Ends between (next result) post) :
    Ends table (attempt action >>= next) post := by
  refine ends_attempt_bind (hunbroken.ends h) ?_ ?_
  · intro cause between hmid
    exact absurd rfl (hmid.2 cause)
  · intro result between hmid
    exact hnext result between hmid.1

/-- A step behind one that never breaks off, whichever calls fail. -/
theorem endures_unbroken_bind {mid : Except StoreError α → Table → Prop}
    {post : Except StoreError β → Table → Prop} (hunbroken : Unbroken action)
    (h : Endures table action mid)
    (hnext : ∀ result between, mid result between → Endures between (next result) post) :
    Endures table (attempt action >>= next) post := by
  refine endures_attempt_bind (hunbroken.endures h) ?_ ?_
  · intro cause between hmid
    exact absurd rfl (hmid.2 cause)
  · intro result between hmid
    exact hnext result between hmid.1

end Expiry
end StructuredStore
