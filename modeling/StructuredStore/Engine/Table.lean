import StructuredStore.Bytes

/-!
# Ordered tables

The rows below the store: byte keys with byte contents, kept in strictly
increasing bytewise order of the keys.  Beside point reads and writes there is
one scan: over the rows whose key starts with a given stem, in key order, until
the visitor stops it.

Main results:

- `get?_insert`, `get?_erase`: what a write does to every point read.
- `mem_rows_iff`: a row is in the table exactly when a point read finds it.
- `rowsUnder_eq_filter`: a scan meets exactly the rows under its stem.
-/

namespace StructuredStore

/-- A key and the contents stored at it. -/
abbrev Row := Bytes × Bytes

/-! ## Rows in key order -/

namespace Rows

/-- The contents at a key. -/
def find? (key : Bytes) : List Row → Option Bytes
  | [] => none
  | row :: rows => if row.1 = key then some row.2 else find? key rows

/-- Puts a row at its place, over the row of the same key if there is one. -/
def insert (key contents : Bytes) : List Row → List Row
  | [] => [(key, contents)]
  | row :: rows =>
      if key < row.1 then (key, contents) :: row :: rows
      else if key = row.1 then (key, contents) :: rows
      else row :: insert key contents rows

/-- Takes a row out. -/
def erase (key : Bytes) : List Row → List Row
  | [] => []
  | row :: rows => if row.1 = key then rows else row :: erase key rows

/-- Whether the keys increase strictly. -/
abbrev Sorted (rows : List Row) : Prop :=
  rows.Pairwise fun a b => a.1 < b.1

/-- A row that is inserted is found at its key, and no other key is affected. -/
theorem find?_insert (key contents other : Bytes) (rows : List Row) :
    find? other (insert key contents rows) =
      if key = other then some contents else find? other rows := by
  induction rows with
  | nil => rfl
  | cons row rows ih =>
      rw [insert]
      split
      · rfl
      · split
        · rename_i h
          subst h
          by_cases h : row.1 = other <;> simp [find?, h]
        · rename_i h
          rw [find?, find?, ih]
          by_cases hrow : row.1 = other
          · have hkey : key ≠ other := fun hkey => h (hkey.trans hrow.symm)
            simp [hrow, hkey]
          · simp [hrow]

/-- Insertion adds no row but its own. -/
theorem mem_insert {key contents : Bytes} {rows : List Row} {row : Row}
    (h : row ∈ insert key contents rows) : row = (key, contents) ∨ row ∈ rows := by
  induction rows with
  | nil => exact Or.inl (List.mem_singleton.mp h)
  | cons first rows ih =>
      rw [insert] at h
      split at h
      · simpa using h
      · split at h
        · rcases List.mem_cons.mp h with h | h
          · exact Or.inl h
          · exact Or.inr (List.mem_cons_of_mem _ h)
        · rcases List.mem_cons.mp h with h | h
          · exact Or.inr (h ▸ List.mem_cons_self)
          · exact (ih h).imp_right (List.mem_cons_of_mem _)

/-- Rows stay sorted when one is inserted. -/
theorem sorted_insert (key contents : Bytes) {rows : List Row} (h : Sorted rows) :
    Sorted (insert key contents rows) := by
  induction rows with
  | nil => exact List.pairwise_singleton _ _
  | cons first rows ih =>
      have htail := List.pairwise_cons.mp h
      rw [insert]
      split
      · rename_i hlt
        refine List.pairwise_cons.mpr ⟨fun row hrow => ?_, h⟩
        rcases List.mem_cons.mp hrow with rfl | hrow
        · exact hlt
        · exact List.lt_trans hlt (htail.1 row hrow)
      · split
        · rename_i heq
          subst heq
          exact List.pairwise_cons.mpr ⟨htail.1, htail.2⟩
        · rename_i hlt hne
          refine List.pairwise_cons.mpr ⟨fun row hrow => ?_, ih htail.2⟩
          rcases mem_insert hrow with rfl | hrow
          · exact Std.lt_of_le_of_ne (List.not_lt.mp hlt) (Ne.symm hne)
          · exact htail.1 row hrow

/-- What is left when a key is erased are some of the rows, in their order. -/
theorem erase_sublist (key : Bytes) (rows : List Row) : (erase key rows).Sublist rows := by
  induction rows with
  | nil => exact List.Sublist.refl _
  | cons row rows ih =>
      rw [erase]
      split
      · exact List.sublist_cons_self row rows
      · exact ih.cons_cons row

/-- A key that no row has is not found. -/
theorem find?_eq_none_of_forall_ne {key : Bytes} {rows : List Row}
    (h : ∀ row ∈ rows, row.1 ≠ key) : find? key rows = none := by
  induction rows with
  | nil => rfl
  | cons row rows ih =>
      rw [find?, if_neg (h row List.mem_cons_self)]
      exact ih fun r hr => h r (List.mem_cons_of_mem _ hr)

/-- An erased key is not found any more; that takes sorted rows, where a key has one
row at most. -/
theorem find?_erase (key other : Bytes) {rows : List Row} (h : Sorted rows) :
    find? other (erase key rows) = if key = other then none else find? other rows := by
  induction rows with
  | nil => simp [erase, find?]
  | cons row rows ih =>
      have htail := List.pairwise_cons.mp h
      rw [erase]
      split
      · rename_i hrow
        subst hrow
        by_cases hother : row.1 = other
        · subst hother
          rw [if_pos rfl]
          exact find?_eq_none_of_forall_ne fun r hr heq =>
            List.lt_irrefl row.1 (by simpa [heq] using htail.1 r hr)
        · simp [find?, hother]
      · rename_i hrow
        rw [find?, find?, ih htail.2]
        by_cases hother : row.1 = other
        · have hkey : key ≠ other := fun hkey => hrow (hother.trans hkey.symm)
          simp [hother, hkey]
        · simp [hother]

/-- In sorted rows a row is there exactly if it is found at its key. -/
theorem mem_iff_find?_eq_some {rows : List Row} (h : Sorted rows) {key contents : Bytes} :
    (key, contents) ∈ rows ↔ find? key rows = some contents := by
  induction rows with
  | nil => simp [find?]
  | cons row rows ih =>
      have htail := List.pairwise_cons.mp h
      rw [find?, List.mem_cons]
      by_cases hrow : row.1 = key
      · rw [if_pos hrow]
        constructor
        · rintro (rfl | hmem)
          · rfl
          · exact absurd (htail.1 _ hmem) (by simp [hrow, List.lt_irrefl])
        · intro hcontents
          left
          cases hcontents
          exact Prod.ext hrow.symm rfl
      · rw [if_neg hrow, ← ih htail.2]
        constructor
        · rintro (rfl | hmem)
          · exact absurd rfl hrow
          · exact hmem
        · exact Or.inr

end Rows

/-! ## Tables -/

/-- Rows in strictly increasing order of their keys. -/
structure Table where
  rows : List Row
  sorted : Rows.Sorted rows
deriving DecidableEq

namespace Table

/-- The table without rows. -/
def empty : Table := ⟨[], List.Pairwise.nil⟩

instance : Inhabited Table := ⟨empty⟩

/-- The contents at a key. -/
def get? (table : Table) (key : Bytes) : Option Bytes :=
  Rows.find? key table.rows

/-- The table with the given contents at a key. -/
def insert (table : Table) (key contents : Bytes) : Table :=
  ⟨Rows.insert key contents table.rows, Rows.sorted_insert key contents table.sorted⟩

/-- The table without the row of a key. -/
def erase (table : Table) (key : Bytes) : Table :=
  ⟨Rows.erase key table.rows, table.sorted.sublist (Rows.erase_sublist key table.rows)⟩

/-- The table with the given rows, a later row replacing an earlier one of the
same key. -/
def ofRows (rows : List Row) : Table :=
  rows.foldl (fun table row => table.insert row.1 row.2) empty

/-- An empty table has no rows. -/
@[simp]
theorem get?_empty (key : Bytes) : empty.get? key = none := rfl

/-- What is read behind an insertion. -/
theorem get?_insert (table : Table) (key contents other : Bytes) :
    (table.insert key contents).get? other =
      if key = other then some contents else table.get? other :=
  Rows.find?_insert key contents other table.rows

/-- What is read behind an erasure. -/
theorem get?_erase (table : Table) (key other : Bytes) :
    (table.erase key).get? other = if key = other then none else table.get? other :=
  Rows.find?_erase key other table.sorted

/-- The rows of a table are what is read at its keys. -/
theorem mem_rows_iff (table : Table) (key contents : Bytes) :
    (key, contents) ∈ table.rows ↔ table.get? key = some contents :=
  Rows.mem_iff_find?_eq_some table.sorted

/-! ## Scans -/

/-- Whether a scan goes on after a row. -/
inductive Visit where
  | proceed
  | stop
deriving DecidableEq, Repr

/-- Shows rows to a visitor, in order, until it stops. -/
def visitRows {σ : Type} (visit : σ → Row → σ × Visit) : σ → List Row → σ
  | state, [] => state
  | state, row :: rows =>
      match visit state row with
      | (state, .proceed) => visitRows visit state rows
      | (state, .stop) => state

/-- The rows whose key starts with the stem: from the first key that is not
below it, as long as keys start with it. -/
def rowsUnder (table : Table) (stem : Bytes) : List Row :=
  (table.rows.dropWhile fun row => row.1 < stem).takeWhile fun row =>
    stem.isPrefixOf row.1

/-- No key under a stem lies below it. -/
theorem not_lt_of_isPrefixOf {stem key : Bytes} (h : stem.isPrefixOf key = true) :
    ¬ key < stem := by
  induction stem generalizing key with
  | nil => exact List.not_lt_nil key
  | cons s stem ih =>
      cases key with
      | nil => simp at h
      | cons k key =>
          simp only [List.isPrefixOf, Bool.and_eq_true, beq_iff_eq] at h
          obtain ⟨rfl, h⟩ := h
          rw [List.cons_lt_cons_iff]
          rintro (hlt | ⟨_, hlt⟩)
          · exact absurd hlt (Std.lt_irrefl)
          · exact ih h hlt

/-- The keys under a stem are adjacent: a key between the stem and a key under
it lies under it too. -/
theorem isPrefixOf_of_lt {stem low high : Bytes} (hlow : ¬ low < stem)
    (hlt : low < high) (hhigh : stem.isPrefixOf high = true) :
    stem.isPrefixOf low = true := by
  induction stem generalizing low high with
  | nil => rfl
  | cons s stem ih =>
      cases high with
      | nil => simp at hhigh
      | cons b high =>
          cases low with
          | nil => exact absurd (List.nil_lt_cons s stem) hlow
          | cons a low =>
              simp only [List.isPrefixOf, Bool.and_eq_true, beq_iff_eq] at hhigh ⊢
              obtain ⟨rfl, hhigh⟩ := hhigh
              rw [List.cons_lt_cons_iff] at hlow hlt
              rcases hlt with hlt | ⟨rfl, hlt⟩
              · exact absurd (Or.inl hlt) hlow
              · exact ⟨rfl, ih (fun h => hlow (Or.inr ⟨rfl, h⟩)) hlt hhigh⟩

/-- The rows under a stem are those whose keys start with it. -/
theorem rowsUnder_eq_filter (table : Table) (stem : Bytes) :
    table.rowsUnder stem = table.rows.filter fun row => stem.isPrefixOf row.1 := by
  unfold rowsUnder
  have hsorted := table.sorted
  generalize table.rows = rows at hsorted
  induction rows with
  | nil => rfl
  | cons row rows ih =>
      have htail := List.pairwise_cons.mp hsorted
      by_cases hbelow : row.1 < stem
      · have hnot : stem.isPrefixOf row.1 = false :=
          Bool.eq_false_iff.mpr fun h => not_lt_of_isPrefixOf h hbelow
        rw [List.dropWhile_cons_of_pos (by simpa using hbelow),
          List.filter_cons_of_neg (by simp [hnot]), ih htail.2]
      · rw [List.dropWhile_cons_of_neg (by simpa using hbelow)]
        by_cases hstem : stem.isPrefixOf row.1 = true
        · have hdrop : rows.dropWhile (fun row => decide (row.1 < stem)) = rows := by
            cases rows with
            | nil => rfl
            | cons next rows =>
                have hnext : ¬ next.1 < stem := fun h =>
                  hbelow (List.lt_trans (htail.1 next List.mem_cons_self) h)
                exact List.dropWhile_cons_of_neg (by simpa using hnext)
          rw [List.takeWhile_cons_of_pos (by exact hstem),
            List.filter_cons_of_pos (by exact hstem), ← ih htail.2, hdrop]
        · rw [List.takeWhile_cons_of_neg (by exact hstem),
            List.filter_cons_of_neg (by exact hstem)]
          symm
          rw [List.filter_eq_nil_iff]
          exact fun later hlater h =>
            hstem (isPrefixOf_of_lt hbelow (htail.1 later hlater) h)

end Table
end StructuredStore
