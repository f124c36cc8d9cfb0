import StructuredStore.Proofs.Deque.Layout
import StructuredStore.Repair

/-!
# Closing the holes of a list

The items of a broken list lie at increasing indices.  They are moved one after
the other to the first free index, through the interval that they lie in.  At
every point the items already met are at consecutive indices, and those still to
come lie behind them, so that no item is moved over another one.

Main results:

- `rowsUnder_move`: one item is moved and the others stay.
- `run_closeHoles`: all items end at consecutive indices, in their order.
-/

namespace StructuredStore.Repair

open Engine Store Deque

variable {table : Table} {key : String}

/-! ## Rows of items -/

/-- A row of an item is at one of the indices. -/
theorem exists_index_of_mem {present : List Int64} {items : List Bytes} {row : Row}
    (h : row ∈ rows key present items) : ∃ index ∈ present, row.1 = Key.listItem key index := by
  rcases List.mem_iff_getElem.mp h with ⟨place, hplace, rfl⟩
  rw [rows, List.length_zipWith] at hplace
  refine ⟨present[place], List.getElem_mem _, ?_⟩
  simp [rows]

theorem rows_append {front back : List Int64} {first last : List Bytes}
    (h : front.length = first.length) :
    rows key (front ++ back) (first ++ last) = rows key front first ++ rows key back last :=
  List.zipWith_append h

/-- Indices and items can be told from their rows. -/
theorem rows_injective {present present' : List Int64} {items items' : List Bytes}
    (h : present.length = items.length) (h' : present'.length = items'.length)
    (heq : rows key present items = rows key present' items') :
    present = present' ∧ items = items' := by
  induction present generalizing items present' items' with
  | nil =>
      cases items with
      | cons item items => cases h
      | nil =>
          cases present' with
          | nil =>
              cases items' with
              | nil => exact ⟨rfl, rfl⟩
              | cons item' items' => cases h'
          | cons index' present' =>
              cases items' with
              | nil => cases h'
              | cons item' items' => cases heq
  | cons index present ih =>
      cases items with
      | nil => cases h
      | cons item items =>
          cases present' with
          | nil => cases heq
          | cons index' present' =>
              cases items' with
              | nil => cases h'
              | cons item' items' =>
                  rcases List.cons.inj heq with ⟨hrow, hrest⟩
                  rcases Prod.mk.inj hrow with ⟨hkey, rfl⟩
                  rw [Key.listItem_inj] at hkey
                  subst hkey
                  rcases ih (Nat.succ.inj h) (Nat.succ.inj h') hrest with ⟨rfl, rfl⟩
                  exact ⟨rfl, rfl⟩

/-- The rows of a table show increasing indices. -/
theorem ascending_of_sorted {present : List Int64} {items : List Bytes}
    (h : present.length = items.length) (hsorted : Rows.Sorted (rows key present items)) :
    Ascending present := by
  induction present generalizing items with
  | nil => exact .nil
  | cons index present ih =>
      cases items with
      | nil => cases h
      | cons item items =>
          rcases List.pairwise_cons.mp hsorted with ⟨hfirst, hrest⟩
          have hlength : present.length = items.length := Nat.succ.inj h
          refine List.pairwise_cons.mpr ⟨fun other hother => ?_, ih hlength hrest⟩
          rcases List.mem_iff_getElem.mp hother with ⟨place, hplace, rfl⟩
          have hrow : (Key.listItem key present[place], items[place]) ∈ rows key present items := by
            refine List.mem_iff_getElem.mpr ⟨place, ?_, by simp [rows]⟩
            rw [rows, List.length_zipWith]
            omega
          exact (Key.listItem_lt_iff key index _).mp (hfirst _ hrow)

/-! ## One move -/

theorem run_moveItem {source : Int64} {item : Bytes}
    (h : table.get? (Key.listItem key source) = some item) (target : Int64) :
    (moveItem key source target).run (ofTable table) =
      (.ok true, ofTable ((table.insert (Key.listItem key target) item).erase
        (Key.listItem key source))) := by
  rw [moveItem, run_bind_ok (run_get table _), h]
  rfl

/-- The item between others is found at its index. -/
theorem get?_of_rowsUnder {front back : List Int64} {first last : List Bytes} {source : Int64}
    {item : Bytes} (hlength : front.length = first.length)
    (hrows : table.rowsUnder (Key.itemStem key .list) =
      rows key (front ++ source :: back) (first ++ item :: last)) :
    table.get? (Key.listItem key source) = some item := by
  have hrow : (Key.listItem key source, item) ∈ table.rowsUnder (Key.itemStem key .list) := by
    rw [hrows, rows_append hlength]
    exact List.mem_append_right _ List.mem_cons_self
  exact ((Table.mem_rowsUnder table _ _).mp hrow).1

/-- A row of items is that at one index, or lies on either side of it. -/
theorem mem_rows_append_cons {front back : List Int64} {first last : List Bytes}
    (hlength : front.length = first.length) (index : Int64) (item : Bytes) (row : Row) :
    row ∈ rows key (front ++ index :: back) (first ++ item :: last) ↔
      (row ∈ rows key front first ∨ row ∈ rows key back last) ∨
        row = (Key.listItem key index, item) := by
  have hcons : rows key (index :: back) (item :: last)
      = (Key.listItem key index, item) :: rows key back last := rfl
  rw [rows_append hlength, hcons, List.mem_append, List.mem_cons]
  tauto

/-- No item on either side lies at the index between them. -/
theorem ne_listItem_of_mem_rows {front back : List Int64} {first last : List Bytes}
    {index : Int64} (hascending : Ascending (front ++ index :: back)) {row : Row}
    (hrow : row ∈ rows key front first ∨ row ∈ rows key back last) :
    row.1 ≠ Key.listItem key index := by
  obtain ⟨_, hback, hacross⟩ := List.pairwise_append.mp hascending
  intro heq
  rcases hrow with hrow | hrow
  · obtain ⟨other, hmem, hkey⟩ := exists_index_of_mem hrow
    rw [heq, Key.listItem_inj] at hkey
    subst hkey
    exact absurd (hacross _ hmem _ List.mem_cons_self) (lt_irrefl _)
  · obtain ⟨other, hmem, hkey⟩ := exists_index_of_mem hrow
    rw [heq, Key.listItem_inj] at hkey
    subst hkey
    exact absurd ((List.pairwise_cons.mp hback).1 _ hmem) (lt_irrefl _)

/-- An item is moved to a free index between its neighbours. -/
theorem rowsUnder_move {front back : List Int64} {first last : List Bytes} {source target : Int64}
    {item : Bytes} (hlength : front.length = first.length)
    (hrows : table.rowsUnder (Key.itemStem key .list) =
      rows key (front ++ source :: back) (first ++ item :: last))
    (hsource : Ascending (front ++ source :: back)) (htarget : Ascending (front ++ target :: back))
    (hne : target ≠ source) :
    ((table.insert (Key.listItem key target) item).erase (Key.listItem key source)).rowsUnder
        (Key.itemStem key .list) = rows key (front ++ target :: back) (first ++ item :: last) := by
  have hold : ∀ row : Row, table.get? row.1 = some row.2 ∧ Key.itemStem key .list <+: row.1 ↔
      (row ∈ rows key front first ∨ row ∈ rows key back last) ∨
        row = (Key.listItem key source, item) := by
    intro row
    rw [← mem_rows_append_cons hlength, ← hrows, Table.mem_rowsUnder]
  apply Table.rowsUnder_eq_of_sorted (sorted_rows key htarget _)
  intro row
  rw [mem_rows_append_cons hlength, Table.get?_erase, Table.get?_insert]
  constructor
  · rintro (hrow | rfl)
    · rw [if_neg (ne_listItem_of_mem_rows hsource hrow).symm,
        if_neg (ne_listItem_of_mem_rows htarget hrow).symm]
      exact (hold row).mpr (Or.inl hrow)
    · have hkeys : Key.listItem key source ≠ Key.listItem key target := by
        rw [ne_eq, Key.listItem_inj]
        exact hne.symm
      rw [if_neg hkeys, if_pos rfl]
      exact ⟨rfl, Key.itemStem_prefix_listItem key target⟩
  · rintro ⟨hget, hstem⟩
    split at hget
    · cases hget
    · rename_i hsourceKey
      split at hget
      · rename_i htargetKey
        right
        cases hget
        rw [htargetKey]
      · rcases (hold row).mp ⟨hget, hstem⟩ with hrow | rfl
        · exact Or.inl hrow
        · exact absurd rfl hsourceKey

/-! ## All moves -/

/-- The index behind consecutive ones is the next one. -/
theorem consecutive_concat {first target : Int64} {count : Nat}
    (h : target.toInt = first.toInt + count) :
    consecutive first (count + 1) = consecutive first count ++ [target] := by
  induction count generalizing first with
  | zero =>
      have hfirst : first = target := Int64.toInt_inj.mp (by omega)
      rw [hfirst]
      rfl
  | succ count ih =>
      have hhigh : target.toInt ≤ 9223372036854775807 := target.toInt_le
      have hnext := @toInt_add_one first (by omega)
      rw [consecutive, ih (by omega)]
      rfl

/-- The next index continues consecutive ones. -/
theorem consecutive_append_cons {first target : Int64} {done : Nat}
    (htarget : target.toInt = first.toInt + done) (rest : List Int64) :
    consecutive first done ++ target :: rest = consecutive first (done + 1) ++ rest := by
  rw [consecutive_concat htarget, List.append_assoc]
  rfl

/-- The item behind those that are done. -/
theorem exists_next_item {done : Nat} {items : List Bytes} (h : done < items.length) :
    ∃ before item behind, before.length = done ∧ items = before ++ item :: behind := by
  refine ⟨items.take done, items[done], items.drop (done + 1), ?_, ?_⟩
  · rw [List.length_take]
    omega
  · rw [List.getElem_cons_drop, List.take_append_drop]

/-- The first index behind consecutive ones may be lowered to the next one. -/
theorem ascending_lower {first target index : Int64} {done : Nat} {rest : List Int64}
    (h : Ascending (consecutive first done ++ index :: rest))
    (htarget : target.toInt = first.toInt + done) (hle : target.toInt ≤ index.toInt) :
    Ascending (consecutive first done ++ target :: rest) := by
  have hhigh : target.toInt ≤ 9223372036854775807 := target.toInt_le
  rcases List.pairwise_append.mp h with ⟨hfront, hback, hacross⟩
  rcases List.pairwise_cons.mp hback with ⟨hbehind, hrest⟩
  refine List.pairwise_append.mpr ⟨hfront, List.pairwise_cons.mpr ⟨?_, hrest⟩, ?_⟩
  · intro other hother
    have hbetween := hbehind other hother
    omega
  · intro low hlow other hother
    rcases List.mem_cons.mp hother with rfl | hother
    · have hbound := (mem_consecutive (by omega) hlow).2
      omega
    · exact hacross low hlow other (List.mem_cons_of_mem _ hother)

/-- Behind the first index the next ones lie beyond the next target. -/
theorem next_le_of_ascending {first target index : Int64} {done : Nat} {rest : List Int64}
    (h : Ascending (consecutive first done ++ index :: rest))
    (htarget : target.toInt = first.toInt + done) (hle : target.toInt ≤ index.toInt) :
    (rest ≠ [] → (target + 1).toInt = first.toInt + (done + 1 : Nat)) ∧
      ∀ other ∈ rest, first.toInt + (done + 1 : Nat) ≤ other.toInt := by
  rcases List.pairwise_append.mp h with ⟨_, hback, _⟩
  rcases List.pairwise_cons.mp hback with ⟨hbehind, _⟩
  constructor
  · intro hne
    rcases List.exists_mem_of_ne_nil rest hne with ⟨other, hother⟩
    have hlt := hbehind other hother
    have hhigh : other.toInt ≤ 9223372036854775807 := other.toInt_le
    rw [toInt_add_one (by omega)]
    omega
  · intro other hother
    have hlt := hbehind other hother
    omega

/-- Items at increasing indices, of which those in front are consecutive, are
moved to consecutive indices in their order; nothing else changes. -/
theorem run_closeHoles {first target : Int64} {done : Nat} {rest : List Int64} {items : List Bytes}
    (hrows : table.rowsUnder (Key.itemStem key .list) =
      rows key (consecutive first done ++ rest) items)
    (hlength : items.length = done + rest.length)
    (hascending : Ascending (consecutive first done ++ rest))
    (htarget : rest ≠ [] → target.toInt = first.toInt + done)
    (hle : ∀ index ∈ rest, first.toInt + done ≤ index.toInt) :
    ∃ moved after, (closeHoles key target rest).run (ofTable table) = (.ok moved, ofTable after) ∧
      after.rowsUnder (Key.itemStem key .list) =
        rows key (consecutive first (done + rest.length)) items ∧
      (∀ physical, ¬ Key.itemStem key .list <+: physical →
        after.get? physical = table.get? physical) ∧
      (moved = false → after = table) ∧
      (moved = true → rest ≠ consecutive target rest.length) := by
  induction rest generalizing table target done with
  | nil =>
      refine ⟨false, table, rfl, ?_, fun _ _ => rfl, fun _ => rfl, fun h => by cases h⟩
      rw [hrows, List.append_nil]
      rfl
  | cons index rest ih =>
      have htarget := htarget (List.cons_ne_nil _ _)
      have hindex := hle index List.mem_cons_self
      rcases next_le_of_ascending hascending htarget (by omega) with ⟨hnextTarget, hnextLe⟩
      have hassoc := consecutive_append_cons htarget rest
      have hcount : done + (index :: rest).length = done + 1 + rest.length := by
        rw [List.length_cons]
        omega
      rw [hcount] at hlength ⊢
      by_cases hstay : target = index
      · subst hstay
        rw [hassoc] at hrows hascending
        rcases ih hrows hlength hascending hnextTarget hnextLe
          with ⟨moved, after, hrun, hafter, hothers, hkept, hmoved⟩
        refine ⟨moved, after, ?_, hafter, hothers, hkept, fun h heq => ?_⟩
        · rw [closeHoles, if_pos rfl, pure_bind]
          dsimp only
          rw [run_bind_ok hrun]
          rfl
        · exact hmoved h (List.cons.inj heq).2
      · -- The item moves down to an index that none of the others has.
        have hascending' := ascending_lower hascending htarget (by omega)
        rcases @exists_next_item done items (by omega) with ⟨before, item, behind, hbefore, rfl⟩
        have hfrontLength : (consecutive first done).length = before.length := by
          rw [length_consecutive, hbefore]
        have hget := get?_of_rowsUnder hfrontLength hrows
        have hmove := rowsUnder_move hfrontLength hrows hascending hascending' hstay
        rw [hassoc] at hmove hascending'
        rcases ih hmove hlength hascending' hnextTarget hnextLe
          with ⟨moved, after, hrun, hafter, hothers, _, _⟩
        refine ⟨true, after, ?_, hafter, fun physical hphysical => ?_, fun h => (by cases h),
          fun _ heq => hstay (List.cons.inj heq).1.symm⟩
        · rw [closeHoles, if_neg hstay, run_bind_ok (run_moveItem hget target)]
          dsimp only
          rw [run_bind_ok hrun]
          rfl
        · have hne : ∀ other : Int64, Key.listItem key other ≠ physical := by
            rintro other rfl
            exact hphysical (Key.itemStem_prefix_listItem key other)
          rw [hothers physical hphysical, Table.get?_erase, if_neg (hne index), Table.get?_insert,
            if_neg (hne target)]

end StructuredStore.Repair
