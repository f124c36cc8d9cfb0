import StructuredStore.Proofs.Engine.Interruption
import StructuredStore.Proofs.Engine.Locality

/-!
# Computations that can be started again

A computation that a failing call stopped is started again, on what it left.
Its reads find what they found before, since nothing that they look at has
changed; rows that are gone are removed once more, and a row that was written
is written over.

Main results:

- `Stops.bind_read`, `Restarts.bind_read`: a read in front of what can be started
  again.
- `Strips.restarts`, `Restarts.set_bind`: removals and a write in front of a
  last call.
-/

namespace StructuredStore

/-- Whether exactly the given keys are absent from what is otherwise the first
table. -/
structure Table.Loses (keys : Bytes → Prop) (table after : Table) : Prop where
  absent : ∀ key, keys key → after.get? key = none
  agree : table.AgreeOff keys after

namespace Table.Loses

variable {keys more : Bytes → Prop} {table between after other : Table}

protected theorem refl (table : Table) : table.Loses (fun _ => False) table :=
  ⟨fun _ h => h.elim, .refl _ table⟩

/-- Erasing one row loses that row and no other. -/
protected theorem erase (table : Table) (key : Bytes) :
    table.Loses (fun other => other = key) (table.erase key) :=
  ⟨fun _ h => h ▸ get?_erase_self table key, .erase (by rfl) table⟩

/-- Losses add up along a run. -/
protected theorem trans (hfirst : table.Loses keys between) (hsecond : between.Loses more after) :
    table.Loses (fun key => keys key ∨ more key) after := by
  refine ⟨fun key hkey => ?_, ?_⟩
  · by_cases hmore : more key
    · exact hsecond.absent key hmore
    · rw [hsecond.agree key hmore]
      exact hfirst.absent key (hkey.resolve_right hmore)
  · exact (hfirst.agree.mono fun _ => Or.inl).trans (hsecond.agree.mono fun _ => Or.inr)

/-- Tables that differ at the removed keys only lose them alike. -/
theorem unique (h : table.Loses keys after) (hagree : table.AgreeOff keys between)
    (hother : between.Loses keys other) : other = after := by
  apply Table.ext_get?
  intro key
  by_cases hkey : keys key
  · rw [hother.absent key hkey, h.absent key hkey]
  · rw [hother.agree key hkey, hagree key hkey, h.agree key hkey]

end Table.Loses

namespace Engine

variable {α β : Type} {keys more : Bytes → Prop}

/-! ## Computations that write once -/

/-- Whether a computation that is stopped leaves the table that it started on. -/
def Abrupt (action : StoreM α) : Prop :=
  ∀ table, ∃ outcome after, Stops (fun _ left => left = table) table action outcome after

namespace Abrupt

/-- A command that leaves the rows alone when it fails is abrupt. -/
theorem of_steady {action : StoreM α} (h : Steady action) : Abrupt action := by
  intro table
  obtain ⟨outcome, _, hstops⟩ := h table
  exact ⟨outcome, table, hstops⟩

protected theorem set (key contents : Bytes) : Abrupt (set key contents) :=
  fun _ => ⟨_, _, .set rfl key contents⟩

protected theorem delete (key : Bytes) : Abrupt (delete key) :=
  fun _ => ⟨_, _, .delete rfl key⟩

/-- Translating the answer does not change what is left of the rows. -/
protected theorem map {action : StoreM α} (f : α → β) (h : Abrupt action) :
    Abrupt (f <$> action) := by
  intro table
  obtain ⟨outcome, after, hstops⟩ := h table
  exact ⟨_, after, hstops.map f⟩

/-- A steady start in front of an abrupt command: a failure there is before any write.
-/
theorem bind_steady {first : StoreM α} {next : α → StoreM β} (hfirst : Steady first)
    (hnext : ∀ a, Abrupt (next a)) : Abrupt (first >>= next) := by
  intro table
  obtain ⟨outcome, _, hstops⟩ := hfirst table
  cases outcome with
  | error e => exact ⟨_, table, hstops.bind_error⟩
  | ok a =>
      obtain ⟨outcome, after, hrest⟩ := hnext a table
      exact ⟨outcome, after, hstops.bind hrest⟩

end Abrupt

/-! ## Computations that can be started again -/

/-- A read in front of a computation that changes other keys than it looks at:
made again on what is left, it finds the same. -/
theorem Stops.bind_read {place : Call → Table → Prop} {looked : Bytes → Prop}
    {table after : Table} {first : StoreM α} {next : α → StoreM β} {a : α}
    {outcome : Except StoreError β} (h : Stops place table (next a) outcome after)
    (hsteady : Steady first) (hlocal : Local looked first)
    (hdisjoint : ∀ key, looked key → ¬ keys key)
    (hread : first.run (ofTable table) = (.ok a, ofTable table))
    (htable : ∀ call, place call table)
    (hplace : ∀ call left, place call left → table.AgreeOff keys left) :
    Stops (fun call left => place call left ∧
      (first >>= next).run (ofTable left) = (next a).run (ofTable left)) table (first >>= next)
      outcome after := by
  obtain ⟨found, _, hstops⟩ := hsteady table
  have hfound := hstops.run
  rw [hread] at hfound
  cases hfound
  refine .bind (hstops.mono ?_) (h.mono ?_)
  · rintro call left rfl
    exact ⟨htable call, run_bind_ok hread⟩
  · intro call left hleft
    obtain ⟨found, hbefore, hagain⟩ := hlocal.of_agreeOff (hplace call left hleft) hdisjoint
    rw [hread] at hbefore
    cases hbefore
    exact ⟨hleft, run_bind_ok hagain⟩

/-- Whether a computation that is stopped has changed the given keys only and,
started again, ends as it would have ended. -/
def Restarts (keys : Bytes → Prop) (action : StoreM α) : Prop :=
  ∀ table, ∃ outcome after, Stops (fun _ left => table.AgreeOff keys left ∧
    action.run (ofTable left) = (outcome, ofTable after)) table action outcome after

namespace Restarts

/-- An abrupt command has nothing to finish on the second attempt. -/
theorem of_abrupt {action : StoreM α} (h : Abrupt action) : Restarts keys action := by
  intro table
  obtain ⟨outcome, after, hstops⟩ := h table
  refine ⟨outcome, after, hstops.mono ?_⟩
  rintro call left rfl
  exact ⟨.refl keys left, hstops.run⟩

/-- A command that loses only these keys loses only a larger set of them. -/
theorem mono {action : StoreM α} (h : Restarts keys action) (hmore : ∀ key, keys key → more key) :
    Restarts more action := by
  intro table
  obtain ⟨outcome, after, hstops⟩ := h table
  exact ⟨outcome, after, hstops.mono fun _ _ hleft => ⟨hleft.1.mono hmore, hleft.2⟩⟩

protected theorem map {action : StoreM α} (f : α → β) (h : Restarts keys action) :
    Restarts keys (f <$> action) := by
  intro table
  obtain ⟨outcome, after, hstops⟩ := h table
  refine ⟨outcome.map f, after, (hstops.map f).mono ?_⟩
  rintro call left ⟨hagree, hrun⟩
  exact ⟨hagree, by rw [run_map, hrun]⟩

/-- A read in front of what can be started again. -/
theorem bind_read {looked : Bytes → Prop} {first : StoreM α} {next : α → StoreM β}
    (hsteady : Steady first) (hlocal : Local looked first)
    (hdisjoint : ∀ key, looked key → ¬ keys key) (hnext : ∀ a, Restarts keys (next a)) :
    Restarts keys (first >>= next) := by
  intro table
  obtain ⟨outcome, _, hread⟩ := hsteady table
  cases outcome with
  | error e =>
      refine ⟨.error e, table, hread.bind_error.mono ?_⟩
      rintro call left rfl
      exact ⟨.refl keys left, run_bind_error hread.run⟩
  | ok a =>
      obtain ⟨outcome, after, hrest⟩ := hnext a table
      refine ⟨outcome, after, (hrest.bind_read hsteady hlocal hdisjoint hread.run
        (fun _ => ⟨.refl keys table, hrest.run⟩) fun _ _ hleft => hleft.1).mono ?_⟩
      rintro call left ⟨⟨hagree, hrun⟩, hsame⟩
      exact ⟨hagree, hsame.trans hrun⟩

/-- A row that was written before the last call is written over. -/
theorem set_bind {key contents : Bytes} {last : StoreM α} (hlast : Abrupt last) :
    Restarts (fun other => other = key) (set key contents >>= fun _ => last) := by
  intro table
  obtain ⟨outcome, after, hstops⟩ := hlast (table.insert key contents)
  refine ⟨outcome, after, .bind (.set ?_ key contents) (hstops.mono ?_)⟩
  · exact ⟨.refl _ table, (run_bind_ok (run_set table key contents)).trans hstops.run⟩
  · rintro call left rfl
    refine ⟨.insert (by rfl) table contents, ?_⟩
    rw [run_bind_ok (run_set _ key contents), Table.insert_insert]
    exact hstops.run

end Restarts

/-! ## Removals -/

/-- Whether a computation removes exactly the given keys. -/
def Strips (keys : Bytes → Prop) (action : StoreM Unit) : Prop :=
  ∀ table, ∃ after, table.Loses keys after ∧
    Stops (fun _ left => table.AgreeOff keys left) table action (.ok ()) after

namespace Strips

protected theorem pure : Strips (fun _ => False) (pure ()) :=
  fun table => ⟨table, .refl table, .pure ()⟩

protected theorem delete (key : Bytes) : Strips (fun other => other = key) (delete key) :=
  fun table => ⟨_, .erase table key, .delete (.refl _ table) key⟩

/-- Two strippings, one after the other, strip both sets of keys. -/
protected theorem bind {first second : StoreM Unit} (hfirst : Strips keys first)
    (hsecond : Strips more second) :
    Strips (fun key => keys key ∨ more key) (first >>= fun _ => second) := by
  intro table
  obtain ⟨between, hbetween, hstops⟩ := hfirst table
  obtain ⟨after, hafter, hstops'⟩ := hsecond between
  refine ⟨after, hbetween.trans hafter, .bind (hstops.mono ?_) (hstops'.mono ?_)⟩
  · intro call left hagree
    exact hagree.mono fun _ => Or.inl
  · intro call left hagree
    exact (hbetween.agree.mono fun _ => Or.inl).trans (hagree.mono fun _ => Or.inr)

/-- A removal succeeds. -/
theorem exists_run {action : StoreM Unit} (h : Strips keys action) (table : Table) :
    ∃ after, action.run (ofTable table) = (.ok (), ofTable after) := by
  obtain ⟨after, _, hstops⟩ := h table
  exact ⟨after, hstops.run⟩

/-- The set of keys stripped may be described in other words. -/
theorem congr {action : StoreM Unit} (h : Strips keys action)
    (hiff : ∀ key, keys key ↔ more key) : Strips more action := by
  have heq : keys = more := funext fun key => propext (hiff key)
  exact heq ▸ h

/-- Rows that were removed before the last call are removed once more. -/
theorem restarts {strip : StoreM Unit} {last : StoreM α} (hstrip : Strips keys strip)
    (hlast : Abrupt last) : Restarts keys (strip >>= fun _ => last) := by
  intro table
  obtain ⟨stripped, hloses, hstops⟩ := hstrip table
  obtain ⟨outcome, after, hends⟩ := hlast stripped
  have hagain : ∀ left, table.AgreeOff keys left →
      (strip >>= fun _ => last).run (ofTable left) = (outcome, ofTable after) := by
    intro left hagree
    obtain ⟨stripped', hloses', hstops'⟩ := hstrip left
    rw [run_bind_ok hstops'.run, hloses.unique hagree hloses']
    exact hends.run
  refine ⟨outcome, after, .bind (hstops.mono ?_) (hends.mono ?_)⟩
  · exact fun call left hagree => ⟨hagree, hagain left hagree⟩
  · rintro call left rfl
    exact ⟨hloses.agree, hagain left hloses.agree⟩

end Strips
end Engine
end StructuredStore
