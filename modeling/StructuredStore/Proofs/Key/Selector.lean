import StructuredStore.Key
import StructuredStore.Proofs.Bytes.Order

/-!
# Keys of list items

The items of a list lie in the order of their indices, at keys of their own,
and eight bytes behind the stem of a list are always the selector of an index.

Main results:

- `ofIndexSelector_eq_ok_iff`: the byte strings that are read as an index.
- `listItem_inj`, `listItem_lt_iff`: different indices have different keys, in
  the order of the indices.
-/

namespace StructuredStore.Key

/-! ## Selectors -/

@[simp]
theorem length_indexSelector (index : Int64) : (indexSelector index).length = 8 :=
  Bytes.length_bigEndian 8 _

/-- The number of a selector is the distance from the least index. -/
theorem ofBigEndian_indexSelector (index : Int64) :
    (Bytes.ofBigEndian (indexSelector index) : Int) = index.toInt + signOffset := by
  have hlow : -9223372036854775808 ≤ index.toInt := index.le_toInt
  have hhigh : index.toInt ≤ 9223372036854775807 := index.toInt_le
  have hpow : Nat.pow 256 8 = 18446744073709551616 := by decide
  have hoffset : signOffset = 9223372036854775808 := rfl
  rw [indexSelector, Bytes.ofBigEndian_bigEndian, Nat.mod_eq_of_lt (by omega)]
  omega

/-- Selectors are ordered like the indices. -/
theorem indexSelector_lt_iff (a b : Int64) :
    indexSelector a < indexSelector b ↔ a.toInt < b.toInt := by
  have ha := ofBigEndian_indexSelector a
  have hb := ofBigEndian_indexSelector b
  rw [Bytes.lt_iff_ofBigEndian_lt (by simp)]
  omega

theorem indexSelector_injective {a b : Int64} (h : indexSelector a = indexSelector b) :
    a = b := by
  have hread := ofIndexSelector_indexSelector a
  rw [h, ofIndexSelector_indexSelector] at hread
  cases hread
  rfl

/-- A byte string is read as an index exactly if it is the index's selector. -/
theorem ofIndexSelector_eq_ok_iff {selector : Bytes} {index : Int64} :
    ofIndexSelector selector = .ok index ↔ selector = indexSelector index := by
  constructor
  · intro h
    unfold ofIndexSelector at h
    split at h
    · rename_i hlength
      cases h
      have hbound := Bytes.ofBigEndian_lt selector
      have hpow : (256 : Nat) ^ 8 = 18446744073709551616 := by norm_num
      have hoffset : signOffset = 9223372036854775808 := rfl
      rw [hlength, hpow] at hbound
      rw [indexSelector, Int64.toInt_ofInt_of_le (by omega) (by omega)]
      have hnumber : (Bytes.ofBigEndian selector - signOffset + signOffset).toNat
          = Bytes.ofBigEndian selector := by
        omega
      rw [hnumber, ← hlength, Bytes.bigEndian_ofBigEndian]
    · cases h
  · rintro rfl
    exact ofIndexSelector_indexSelector index

/-- Every eight bytes are the selector of the index that they are read as. -/
theorem exists_indexSelector {selector : Bytes} (h : selector.length = 8) :
    ∃ index, ofIndexSelector selector = .ok index ∧ indexSelector index = selector := by
  have hread : ofIndexSelector selector = .ok _ := if_pos h
  exact ⟨_, hread, (ofIndexSelector_eq_ok_iff.mp hread).symm⟩

/-! ## Items -/

/-- Behind the stem of a list stands the selector of the index. -/
theorem drop_listItem (key : String) (index : Int64) :
    (listItem key index).drop (itemStem key .list).length = indexSelector index := by
  simp [listItem, item]

theorem itemStem_prefix_listItem (key : String) (index : Int64) :
    itemStem key .list <+: listItem key index :=
  List.prefix_append _ _

@[simp]
theorem listItem_inj (key : String) (a b : Int64) :
    listItem key a = listItem key b ↔ a = b := by
  constructor
  · intro h
    exact indexSelector_injective (List.append_cancel_left h)
  · rintro rfl
    rfl

/-- Byte strings behind a common front are ordered by what follows. -/
theorem append_lt_append_iff (front a b : Bytes) : front ++ a < front ++ b ↔ a < b := by
  induction front with
  | nil => rfl
  | cons byte front ih =>
      rw [List.cons_append, List.cons_append, List.cons_lt_cons_iff, ih]
      simp [Std.lt_irrefl]

/-- The items of a list lie in the order of their indices. -/
theorem listItem_lt_iff (key : String) (a b : Int64) :
    listItem key a < listItem key b ↔ a.toInt < b.toInt := by
  rw [listItem, listItem, item, item, append_lt_append_iff, indexSelector_lt_iff]

end StructuredStore.Key
