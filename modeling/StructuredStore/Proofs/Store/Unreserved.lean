import StructuredStore.Proofs.Key.Collision
import StructuredStore.Proofs.Store.Preservation

/-!
# Keys outside the buckets

What an unreserved key holds stays consistent under all of its own operations,
those that set an expiry included: these also write into a bucket, which owns
nothing that belongs to the key.

Main results:

- `Expiry.ends_setAt_of`: what is kept when an expiry is set.
- `Holds.ends_setAt`: what the key holds is.
- `Session.run_holds_unreserved`: what the key holds after a run of its
  operations.
-/

namespace StructuredStore

open Engine Store

/-! ## Setting an expiry -/

namespace Expiry

variable {table : Table} {key : String} {keeps : Table → Prop} {width : BucketWidth}
  {now : Instant}

/-- Setting an expiry keeps what neither the stamp on the frame nor a change of
the bucket breaks. -/
theorem ends_setAt_of {instant : Instant} (h : keeps table)
    (hstamp : Ends table (stamp key instant) fun _ after => keeps after)
    (hbucket : ∀ {before after : Table}, keeps before →
      before.AgreeOff (Key.Owns (width.bucket instant)) after → keeps after) :
    Ends table (setAt width now key instant) fun _ after => keeps after := by
  unfold setAt
  by_cases hpast : instant ≤ now
  · rw [if_pos hpast]
    exact .pure h
  · rw [if_neg hpast]
    refine .bind hstamp (fun _ _ hbetween => hbetween) fun _ stamped hstamped => ?_
    obtain ⟨outcome, after, hrun, hagree⟩ :=
      (confined_enlist (width.bucket instant) key).run_ofTable stamped
    have hafter := hbucket hstamped hagree
    cases outcome with
    | error e => exact .bind_error hrun hafter
    | ok _ => exact .bind_run hrun (.pure hafter)

theorem ends_setIn_of {span : Span} (h : keeps table)
    (hsetAt : ∀ instant, Ends table (setAt width now key instant) fun _ after => keeps after) :
    Ends table (setIn width now key span) fun _ after => keeps after := by
  unfold setIn
  split
  · exact .throw h
  · exact hsetAt _

end Expiry

/-! ## What an unreserved key holds -/

namespace Holds

variable {table : Table} {key : String} {steps : Nat} {expireAt : Option Instant}

/-- A bucket may change beside an unreserved key. -/
theorem congr_bucket {after : Table} {seconds : Int64} (h : Holds table key steps expireAt)
    (hreserved : Key.isReserved key = false)
    (hagree : table.AgreeOff (Key.Owns (Key.bucket seconds)) after) :
    Holds after key steps expireAt := by
  apply h.congr
  intro physical howns
  exact hagree physical (Key.not_owns_bucket hreserved howns)

/-- An expiry is set, and the key enlisted beside what it holds. -/
theorem ends_setAt (h : Holds table key steps expireAt) (hreserved : Key.isReserved key = false)
    (width : BucketWidth) (now instant : Instant) :
    Ends table (Expiry.setAt width now key instant) fun _ after =>
      ∃ next, Holds after key steps next := by
  have hstart : ∃ next, Holds table key steps next := ⟨_, h⟩
  apply Expiry.ends_setAt_of hstart
  · apply (h.ends_stamp instant).conseq
    rintro (e | _) after hafter
    · rw [hafter]
      exact ⟨_, h⟩
    · exact ⟨_, hafter⟩
  · rintro before after ⟨next, hnext⟩ hagree
    exact ⟨next, hnext.congr_bucket hreserved hagree⟩

theorem ends_setIn (h : Holds table key steps expireAt) (hreserved : Key.isReserved key = false)
    (width : BucketWidth) (now : Instant) (span : Span) :
    Ends table (Expiry.setIn width now key span) fun _ after =>
      ∃ next, Holds after key steps next :=
  Expiry.ends_setIn_of ⟨_, h⟩ fun instant => h.ends_setAt hreserved width now instant

/-- The operations that set an expiry keep what the key holds consistent. -/
theorem ends_scheduling (h : Holds table key steps expireAt)
    (hreserved : Key.isReserved key = false) (env : Environment) {op : Operation}
    (hkey : op.key? = some key) (hschedules : op.schedules = true) :
    Ends table (op.perform env) fun _ after => ∃ next, Holds after key steps next := by
  cases op <;> cases hkey <;> cases hschedules
  case expireAt instant => exact .map _ (h.ends_setAt hreserved env.width env.now instant)
  case expireIn span => exact .map _ (h.ends_setIn hreserved env.width env.now span)

/-- Every operation on an unreserved key keeps what the key holds consistent. -/
theorem ends_perform_unreserved (h : Holds table key steps expireAt)
    (hreserved : Key.isReserved key = false) (hsteps : steps + 1 < 9223372036854775808)
    (env : Environment) {op : Operation} (hkey : op.key? = some key) :
    Ends table (op.perform env) fun _ after => ∃ next, Holds after key (steps + 1) next := by
  by_cases hschedules : op.schedules = true
  · exact h.succ.ends_scheduling hreserved env hkey hschedules
  · apply (h.ends_perform hsteps env hkey (by simpa using hschedules)).conseq
    intro outcome after ⟨next, _, hnext⟩
    exact ⟨next, hnext⟩

end Holds

/-! ## Runs -/

/-- An unreserved key that only its own operations work on is consistent after
every run from an empty store. -/
theorem Session.run_holds_unreserved (session : Session)
    (hstart : session.engine = .ofTable .empty) {key : String}
    (hreserved : Key.isReserved key = false) (steps : List Step)
    (hops : ∀ op ∈ operations steps, op.key? = some key)
    (hcount : (operations steps).length < 9223372036854775808) :
    ∃ after, (session.run steps).2.engine = .ofTable after ∧
      ∃ expireAt, Holds after key (operations steps).length expireAt := by
  have hrun := @run_invariant (fun count table => ∃ expireAt, Holds table key count expireAt)
    (fun op => op.key? = some key) 9223372036854775808 0 session .empty
    ?_ steps hstart ⟨none, .of_empty key 0⟩ hops (by omega)
  · simpa using hrun
  · intro op count table clock hkey ⟨expireAt, h⟩ hlimit
    exact h.ends_perform_unreserved hreserved hlimit _ hkey

end StructuredStore
