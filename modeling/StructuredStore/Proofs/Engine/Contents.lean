import Mathlib.Data.List.Sort
import StructuredStore.Engine.Table

/-!
# What a table holds

A table is determined by its point reads, and so is the result of a scan.  The
number of rows under a stem changes by one when a row comes or goes there and
is untouched by every other write.

Main results:

- `ext_get?`: tables with the same point reads are equal.
- `rowsUnder_congr`: scans agree where the point reads under the stem agree.
- `countUnder_insert`, `countUnder_erase`: what a write does to the number of
  rows under a stem.
-/

namespace StructuredStore

/-! ## Sorted rows -/

namespace Rows

/-- Whether the key of one row lies before the key of another. -/
abbrev Before (a b : Row) : Prop := a.1 < b.1

instance : Std.Irrefl Before where
  irrefl row := List.lt_irrefl row.1

instance : Std.Antisymm Before where
  antisymm a _ hab hba := absurd (List.lt_trans hab hba) (List.lt_irrefl a.1)

/-- Sorted rows with the same members are the same rows. -/
theorem Sorted.eq_of_mem_iff {a b : List Row} (ha : Sorted a) (hb : Sorted b)
    (h : ∀ row, row ∈ a ↔ row ∈ b) : a = b :=
  List.Pairwise.eq_of_mem_iff (r := Before) ha hb h

/-- A new row is one row more. -/
theorem insert_perm {key : Bytes} (contents : Bytes) {rows : List Row}
    (h : find? key rows = none) : (insert key contents rows).Perm ((key, contents) :: rows) := by
  induction rows with
  | nil => exact List.Perm.refl _
  | cons row rows ih =>
      rw [find?] at h
      split at h
      · cases h
      · rename_i hne
        rw [insert]
        split
        · exact List.Perm.refl _
        · rw [if_neg (fun heq => hne heq.symm)]
          exact ((ih h).cons row).trans (List.Perm.swap _ _ _)

/-- A row that is replaced keeps the keys of all rows. -/
theorem map_fst_insert {key : Bytes} (contents : Bytes) {rows : List Row} (hsorted : Sorted rows)
    (h : find? key rows ≠ none) : (insert key contents rows).map (·.1) = rows.map (·.1) := by
  induction rows with
  | nil => exact absurd rfl h
  | cons row rows ih =>
      have htail := List.pairwise_cons.mp hsorted
      rw [insert]
      rw [find?] at h
      by_cases hrow : row.1 = key
      · rw [if_neg (by simp [hrow, List.lt_irrefl]), if_pos hrow.symm]
        simp [hrow]
      · rw [if_neg hrow] at h
        obtain ⟨old, hold⟩ := Option.ne_none_iff_exists'.mp h
        have hmem := (mem_iff_find?_eq_some htail.2).mpr hold
        have hlt : row.1 < key := htail.1 _ hmem
        rw [if_neg (fun hback => List.lt_irrefl _ (List.lt_trans hlt hback)),
          if_neg (fun heq => hrow heq.symm)]
        simp [ih htail.2 h]

/-- A row that is taken out is one row less. -/
theorem erase_perm {key contents : Bytes} {rows : List Row}
    (h : find? key rows = some contents) : rows.Perm ((key, contents) :: erase key rows) := by
  induction rows with
  | nil => cases h
  | cons row rows ih =>
      rw [find?] at h
      rw [erase]
      split at h
      · rename_i hrow
        cases h
        rw [if_pos hrow, ← hrow]
      · rename_i hrow
        rw [if_neg hrow]
        exact ((ih h).cons row).trans (List.Perm.swap _ _ _)

end Rows

namespace Table

/-! ## Point reads determine a table -/

/-- Tables with the same point reads are equal. -/
theorem ext_get? {a b : Table} (h : ∀ key, a.get? key = b.get? key) : a = b := by
  have hrows : a.rows = b.rows := by
    apply Rows.Sorted.eq_of_mem_iff a.sorted b.sorted
    rintro ⟨key, contents⟩
    rw [mem_rows_iff, mem_rows_iff, h key]
  cases a
  cases b
  cases hrows
  rfl

/-- Taking out an absent row changes nothing. -/
theorem erase_eq_self {table : Table} {key : Bytes} (h : table.get? key = none) :
    table.erase key = table := by
  apply ext_get?
  intro other
  rw [get?_erase]
  split
  · rename_i heq
    rw [← heq, h]
  · rfl

@[simp]
theorem get?_insert_self (table : Table) (key contents : Bytes) :
    (table.insert key contents).get? key = some contents := by
  rw [get?_insert, if_pos rfl]

theorem get?_insert_of_ne (table : Table) (contents : Bytes) {key other : Bytes}
    (h : key ≠ other) : (table.insert key contents).get? other = table.get? other := by
  rw [get?_insert, if_neg h]

@[simp]
theorem get?_erase_self (table : Table) (key : Bytes) : (table.erase key).get? key = none := by
  rw [get?_erase, if_pos rfl]

theorem get?_erase_of_ne (table : Table) {key other : Bytes} (h : key ≠ other) :
    (table.erase key).get? other = table.get? other := by
  rw [get?_erase, if_neg h]

/-- A row that is written twice is written once. -/
@[simp]
theorem insert_insert (table : Table) (key contents : Bytes) :
    (table.insert key contents).insert key contents = table.insert key contents := by
  apply ext_get?
  intro other
  rw [get?_insert]
  split
  · rename_i hsame
    rw [← hsame, get?_insert_self]
  · rfl

/-! ## Scans -/

/-- A scan meets exactly the rows that a point read finds under the stem. -/
theorem mem_rowsUnder (table : Table) (stem : Bytes) (row : Row) :
    row ∈ table.rowsUnder stem ↔ table.get? row.1 = some row.2 ∧ stem <+: row.1 := by
  rw [rowsUnder_eq_filter, List.mem_filter, List.isPrefixOf_iff_prefix, ← mem_rows_iff]

/-- The keys that a scan meets are those under the stem that hold something. -/
theorem mem_map_fst_rowsUnder (table : Table) (stem key : Bytes) :
    key ∈ (table.rowsUnder stem).map (·.1) ↔ table.get? key ≠ none ∧ stem <+: key := by
  rw [List.mem_map, Option.ne_none_iff_exists']
  constructor
  · rintro ⟨row, hrow, rfl⟩
    obtain ⟨hget, hstem⟩ := (mem_rowsUnder table stem row).mp hrow
    exact ⟨⟨row.2, hget⟩, hstem⟩
  · rintro ⟨⟨contents, hget⟩, hstem⟩
    exact ⟨(key, contents), (mem_rowsUnder table stem _).mpr ⟨hget, hstem⟩, rfl⟩

/-- A scan meets rows in increasing order of their keys. -/
theorem sorted_rowsUnder (table : Table) (stem : Bytes) :
    Rows.Sorted (table.rowsUnder stem) := by
  rw [rowsUnder_eq_filter]
  exact table.sorted.filter _

/-- Sorted rows are what a scan meets if they are what point reads find. -/
theorem rowsUnder_eq_of_sorted {table : Table} {stem : Bytes} {rows : List Row}
    (hsorted : Rows.Sorted rows)
    (h : ∀ row : Row, row ∈ rows ↔ table.get? row.1 = some row.2 ∧ stem <+: row.1) :
    table.rowsUnder stem = rows := by
  apply Rows.Sorted.eq_of_mem_iff (sorted_rowsUnder table stem) hsorted
  intro row
  rw [mem_rowsUnder, h]

/-- Scans agree where the point reads under the stem agree. -/
theorem rowsUnder_congr {a b : Table} {stem : Bytes}
    (h : ∀ key, stem <+: key → a.get? key = b.get? key) :
    a.rowsUnder stem = b.rowsUnder stem := by
  apply rowsUnder_eq_of_sorted (sorted_rowsUnder b stem)
  intro row
  rw [mem_rowsUnder]
  constructor
  · rintro ⟨hget, hstem⟩
    exact ⟨by rw [h _ hstem, hget], hstem⟩
  · rintro ⟨hget, hstem⟩
    exact ⟨by rw [← h _ hstem, hget], hstem⟩

/-- A scan meets nothing exactly if no key under the stem is present. -/
theorem rowsUnder_eq_nil_iff (table : Table) (stem : Bytes) :
    table.rowsUnder stem = [] ↔ ∀ key, stem <+: key → table.get? key = none := by
  rw [List.eq_nil_iff_forall_not_mem]
  constructor
  · intro h key hstem
    cases hget : table.get? key with
    | none => rfl
    | some contents => exact absurd ((mem_rowsUnder table stem (key, contents)).mpr ⟨hget, hstem⟩) (h _)
  · intro h row hrow
    obtain ⟨hget, hstem⟩ := (mem_rowsUnder table stem row).mp hrow
    rw [h _ hstem] at hget
    cases hget

/-! ## The number of rows under a stem -/

/-- The number of rows whose key starts with the stem. -/
def countUnder (table : Table) (stem : Bytes) : Nat :=
  (table.rowsUnder stem).length

/-- The number of rows under a stem, by their keys. -/
theorem countUnder_eq_countP (table : Table) (stem : Bytes) :
    table.countUnder stem = (table.rows.map (·.1)).countP fun key => stem.isPrefixOf key := by
  rw [countUnder, rowsUnder_eq_filter, List.countP_map, List.countP_eq_length_filter]
  rfl

theorem countUnder_congr {a b : Table} {stem : Bytes}
    (h : ∀ key, stem <+: key → a.get? key = b.get? key) :
    a.countUnder stem = b.countUnder stem := by
  rw [countUnder, countUnder, rowsUnder_congr h]

theorem countUnder_eq_zero_iff (table : Table) (stem : Bytes) :
    table.countUnder stem = 0 ↔ ∀ key, stem <+: key → table.get? key = none := by
  rw [countUnder, List.length_eq_zero_iff, rowsUnder_eq_nil_iff]

/-- A write outside the stem leaves the number of rows under it. -/
theorem countUnder_insert_outside (table : Table) (contents : Bytes) {stem key : Bytes}
    (h : ¬ stem <+: key) : (table.insert key contents).countUnder stem = table.countUnder stem := by
  apply countUnder_congr
  intro other hother
  exact get?_insert_of_ne table contents fun heq => h (heq ▸ hother)

/-- A removal outside the stem leaves the number of rows under it. -/
theorem countUnder_erase_outside (table : Table) {stem key : Bytes}
    (h : ¬ stem <+: key) : (table.erase key).countUnder stem = table.countUnder stem := by
  apply countUnder_congr
  intro other hother
  exact get?_erase_of_ne table fun heq => h (heq ▸ hother)

/-- A write under the stem adds one row if the key was absent and none if it
was there. -/
theorem countUnder_insert (table : Table) (contents : Bytes) {stem key : Bytes}
    (h : stem <+: key) :
    (table.insert key contents).countUnder stem =
      if table.get? key = none then table.countUnder stem + 1 else table.countUnder stem := by
  rw [countUnder_eq_countP, countUnder_eq_countP]
  split
  · rename_i hnone
    have hperm := (Rows.insert_perm contents hnone).map (·.1)
    rw [insert, hperm.countP_eq, List.map_cons,
      List.countP_cons_of_pos (by simpa [List.isPrefixOf_iff_prefix] using h)]
  · rename_i hsome
    rw [insert, Rows.map_fst_insert contents table.sorted hsome]

/-- A removal under the stem takes one row away if the key was there. -/
theorem countUnder_erase (table : Table) {stem key : Bytes} (h : stem <+: key) :
    (table.erase key).countUnder stem =
      if table.get? key = none then table.countUnder stem else table.countUnder stem - 1 := by
  split
  · rename_i hnone
    rw [erase_eq_self hnone]
  · rename_i hsome
    obtain ⟨contents, hget⟩ := Option.ne_none_iff_exists'.mp hsome
    have hperm := (Rows.erase_perm hget).map (·.1)
    rw [countUnder_eq_countP, countUnder_eq_countP, hperm.countP_eq, List.map_cons,
      List.countP_cons_of_pos (by simpa [List.isPrefixOf_iff_prefix] using h), erase,
      Nat.add_sub_cancel]

/-- A key under the stem that is present counts for at least one row. -/
theorem countUnder_pos {table : Table} {stem key : Bytes} (h : stem <+: key)
    (hget : table.get? key ≠ none) : 0 < table.countUnder stem := by
  apply Nat.pos_of_ne_zero
  intro hzero
  exact hget ((countUnder_eq_zero_iff table stem).mp hzero key h)

end Table
end StructuredStore
