import Mathlib.Data.Finset.Sort
import StructuredStore.Proofs.Expiry.Slices
import StructuredStore.Proofs.Frame.Faithful

/-!
# Instants in the order of time

Instants are ordered by their seconds and then by the nanoseconds within them.
A finite set of instants has exactly one arrangement from the earliest to the
latest.  Outside leap seconds the order is that of the counts of nanoseconds, and
an instant whose count fits 64 bits is determined by it.

Main results:

- `pairwise_inOrder`, `mem_inOrder`: the arrangement is strictly increasing and
  has exactly the instants of the set.
- `ofInt64_lt_iff`, `exists_ofInt64`: instants as 64-bit counts.
-/

namespace StructuredStore

/-- A count of nanoseconds fits exactly if there is a 64-bit count. -/
theorem Instant.toInt64?_isSome_iff (instant : Instant) :
    instant.toInt64?.isSome ↔ FitsInt64 instant.nanoseconds := by
  rw [Option.isSome_iff_ne_none, ne_eq, Instant.toInt64?, Frame.toInt64?_eq_none_iff, not_not]

namespace Instant

/-! ## The order -/

/-- Whether an instant does not come behind another one. -/
def Precedes (a b : Instant) : Prop :=
  a ≤ b

/-- The order of instants, by second and then by nanosecond. -/
theorem precedes_iff (a b : Instant) :
    Precedes a b ↔ a.seconds < b.seconds ∨ a.seconds = b.seconds ∧ a.nanos ≤ b.nanos := by
  show ¬ (b.seconds < a.seconds ∨ b.seconds = a.seconds ∧ b.nanos < a.nanos) ↔ _
  omega

instance : DecidableRel Precedes :=
  fun a b => inferInstanceAs (Decidable (a ≤ b))

instance : IsTrans Instant Precedes := by
  constructor
  intro a b c hab hbc
  rw [precedes_iff] at hab hbc ⊢
  omega

instance : Std.Antisymm Precedes := by
  constructor
  intro a b hab hba
  rw [precedes_iff] at hab hba
  cases a
  cases b
  rw [mk.injEq]
  dsimp only at hab hba
  omega

instance : Std.Total Precedes := by
  constructor
  intro a b
  rw [precedes_iff, precedes_iff]
  omega

/-- Of two different instants one lies before the other. -/
theorem lt_of_precedes {a b : Instant} (h : Precedes a b) (hne : a ≠ b) : a < b := by
  by_contra hnot
  exact hne (Std.Antisymm.antisymm a b h hnot)

/-! ## Arrangements -/

/-- The instants of a set, from the earliest to the latest. -/
def inOrder (instants : Finset Instant) : List Instant :=
  instants.sort Precedes

/-- Sorting keeps all instants and adds none. -/
@[simp]
theorem mem_inOrder {instants : Finset Instant} {instant : Instant} :
    instant ∈ inOrder instants ↔ instant ∈ instants :=
  Finset.mem_sort Precedes

/-- Sorting keeps every instant once. -/
@[simp]
theorem length_inOrder (instants : Finset Instant) :
    (inOrder instants).length = instants.card :=
  Finset.length_sort Precedes

/-- Every instant comes strictly before the later ones. -/
theorem pairwise_inOrder (instants : Finset Instant) :
    (inOrder instants).Pairwise fun a b => a < b := by
  have hprecedes : (inOrder instants).Pairwise Precedes := Finset.pairwise_sort instants Precedes
  have hne : (inOrder instants).Pairwise (· ≠ ·) := Finset.sort_nodup instants Precedes
  exact (hprecedes.and hne).imp fun h => lt_of_precedes h.1 h.2

/-! ## Counts of nanoseconds -/

/-- The instants of 64-bit counts are ordered like the counts. -/
theorem ofInt64_lt_iff (a b : Int64) : ofInt64 a < ofInt64 b ↔ a.toInt < b.toInt := by
  have hle := (isRegular_ofInt64 b).nanoseconds_le (b := ofInt64 a)
  have hback := (isRegular_ofInt64 a).le_of_nanoseconds_le (a := ofInt64 b)
  rw [nanoseconds_ofInt64, nanoseconds_ofInt64] at hle hback
  constructor
  · intro hlt
    by_contra hnot
    exact hback (by omega) hlt
  · intro hlt
    by_contra hnot
    have := hle hnot
    omega

/-- Instants of 64-bit counts are in the order of the counts. -/
theorem ofInt64_le_iff (a b : Int64) : ofInt64 a ≤ ofInt64 b ↔ a.toInt ≤ b.toInt := by
  rw [← not_iff_not, Int.not_le, ← ofInt64_lt_iff]
  exact not_not

/-- Different counts are those of different instants. -/
theorem ofInt64_injective {a b : Int64} (h : ofInt64 a = ofInt64 b) : a = b := by
  have hcount := toInt64?_ofInt64 a
  rw [h, toInt64?_ofInt64] at hcount
  exact (Option.some.inj hcount).symm

/-- An instant outside leap seconds is determined by its count, if that fits 64
bits. -/
theorem exists_ofInt64 {instant : Instant} (hregular : instant.IsRegular)
    (hfits : FitsInt64 instant.nanoseconds) :
    ∃ count, instant.toInt64? = some count ∧ ofInt64 count = instant := by
  obtain ⟨count, hcount⟩ := Option.isSome_iff_exists.mp ((toInt64?_isSome_iff instant).mpr hfits)
  exact ⟨count, hcount, ofInt64_of_toInt64? hcount hregular⟩

end Instant
end StructuredStore
