import StructuredStore.Proofs.Engine.Execution
import StructuredStore.Proofs.Frame.Faithful
import StructuredStore.Store.Deque

/-!
# Limits of sums and buffers

Unchecked arithmetic is exact within the range of 64-bit numbers, and a buffer is
set up for as many items as it can hold.  Outside these limits both break the
operation off and change nothing.

Main results:

- `sum_of_fits`, `sum_of_not_fits`, and the same for differences.
- `run_reserve`: when a buffer can be set up.
-/

namespace StructuredStore.Deque

open Engine

/-! ## Sums -/

/-- A sum within the range. -/
theorem sum_of_fits {a : Int64} {i : Int} (h : FitsInt64 (a.toInt + i)) :
    sum a i = pure (Int64.ofInt (a.toInt + i)) :=
  if_pos h

/-- A sum outside the range breaks off. -/
theorem sum_of_not_fits {a : Int64} {i : Int} (h : ¬ FitsInt64 (a.toInt + i)) :
    sum a i = throw (.aborted .sum) :=
  if_neg h

/-- A difference within the range. -/
theorem difference_of_fits {a : Int64} {i : Int} (h : FitsInt64 (a.toInt - i)) :
    difference a i = pure (Int64.ofInt (a.toInt - i)) :=
  if_pos h

/-- A difference outside the range breaks off. -/
theorem difference_of_not_fits {a : Int64} {i : Int} (h : ¬ FitsInt64 (a.toInt - i)) :
    difference a i = throw (.aborted .difference) :=
  if_neg h

/-- The 64-bit number of a number within the range. -/
theorem toInt_ofInt_of_fits {i : Int} (h : FitsInt64 i) : (Int64.ofInt i).toInt = i := by
  obtain ⟨hlow, hhigh⟩ := h
  exact Int64.toInt_ofInt_of_le (by omega) (by omega)

/-- A sum within the range, by its number. -/
theorem exists_sum_eq {a : Int64} {i : Int} (h : FitsInt64 (a.toInt + i)) :
    ∃ index : Int64, sum a i = pure index ∧ index.toInt = a.toInt + i :=
  ⟨_, sum_of_fits h, toInt_ofInt_of_fits h⟩

/-- Arithmetic answers or breaks off, on every engine alike. -/
theorem inRange_cases (cause : Abort) (i : Int) :
    (∃ a : Int64, inRange cause i = pure a) ∨ inRange cause i = throw (.aborted cause) := by
  unfold inRange
  split
  · exact Or.inl ⟨_, rfl⟩
  · exact Or.inr rfl

/-! ## Buffers -/

/-- A buffer is refused only if it is too large and some of its items are not
there. -/
theorem run_reserve (key : String) (count : Nat) (engine : Engine) :
    (reserve key count).run engine =
      (if maxItems < count ∧ engine.table.countUnder (Key.itemStem key .list) < count then
        .error (.aborted .buffer) else .ok (), engine) := by
  have hread : (reserve key count).run engine =
      ((if maxItems < count ∧ engine.table.countUnder (Key.itemStem key .list) < count then
        throw (.aborted .buffer) else pure () : StoreM Unit)).run engine := rfl
  rw [hread]
  split <;> rfl

/-- Items that are all there have a buffer. -/
theorem run_reserve_of_le {key : String} {count : Nat} {engine : Engine}
    (h : count ≤ engine.table.countUnder (Key.itemStem key .list)) :
    (reserve key count).run engine = (.ok (), engine) := by
  rw [run_reserve, if_neg (by omega)]

/-- A buffer that is not too large can be had. -/
theorem run_reserve_of_le_maxItems {key : String} {count : Nat} (engine : Engine)
    (h : count ≤ maxItems) : (reserve key count).run engine = (.ok (), engine) := by
  rw [run_reserve, if_neg (by omega)]

end StructuredStore.Deque
