import Mathlib.Data.Finset.Sort
import StructuredStore.Text.Utf8

/-!
# Texts in the order of their bytes

A scan meets items in the order of their keys, so the names of the items come
in the order of their UTF-8 bytes.  A finite set of texts has exactly one such
arrangement.

Main results:

- `pairwise_inOrder`, `mem_inOrder`: the arrangement is strictly increasing and
  has exactly the texts of the set.
-/

namespace StructuredStore.Utf8

/-- Whether a text does not come behind another one. -/
def Precedes (a b : String) : Prop :=
  encode a ≤ encode b

instance : DecidableRel Precedes :=
  fun a b => inferInstanceAs (Decidable (encode a ≤ encode b))

instance : IsTrans String Precedes :=
  ⟨fun _ _ _ hab hbc => List.le_trans hab hbc⟩

instance : Std.Antisymm Precedes :=
  ⟨fun _ _ hab hba => encode_injective (List.le_antisymm hab hba)⟩

instance : Std.Total Precedes :=
  ⟨fun a b => List.le_total (encode a) (encode b)⟩

/-- The texts of a set, in increasing order of their bytes. -/
def inOrder (names : Finset String) : List String :=
  names.sort Precedes

/-- Sorting keeps all names and adds none. -/
@[simp]
theorem mem_inOrder {names : Finset String} {name : String} :
    name ∈ inOrder names ↔ name ∈ names :=
  Finset.mem_sort Precedes

/-- Sorting keeps every name once. -/
@[simp]
theorem length_inOrder (names : Finset String) : (inOrder names).length = names.card :=
  Finset.length_sort Precedes

/-- Every text comes strictly before the later ones. -/
theorem pairwise_inOrder (names : Finset String) :
    (inOrder names).Pairwise fun a b => encode a < encode b := by
  have hle : (inOrder names).Pairwise Precedes := Finset.pairwise_sort names Precedes
  have hne : (inOrder names).Pairwise (· ≠ ·) := Finset.sort_nodup names Precedes
  refine (hle.and hne).imp fun {a b} h => ?_
  rcases List.le_iff_lt_or_eq.mp h.1 with hlt | heq
  · exact hlt
  · exact absurd (encode_injective heq) h.2

end StructuredStore.Utf8
