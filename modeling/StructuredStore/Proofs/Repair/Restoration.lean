import StructuredStore.Proofs.Repair.Holes
import StructuredStore.Proofs.Store.Consistency

/-!
# What repair restores

Whatever a table holds, a repaired structure has metadata that agrees with its
items.  Nothing else changes, the report tells whether anything did, and a
second repair finds nothing to do.

Main results:

- `run_repairList`, `ends_recount`: what becomes of a list, and of a structure
  that counts its items.
- `ends_repair`: what becomes of any structure.
- `Holds.run_repair`: where the metadata agrees already, nothing happens.
-/

namespace StructuredStore

open Engine Store

namespace Repair

open Deque

variable {table : Table} {key : String} {expireAt : Option Instant}

/-! ## Indices of rows -/

/-- The indices are read from the rows of items. -/
theorem indices_rows (key : String) {present : List Int64} {items : List Bytes}
    (h : present.length = items.length) : indices key (rows key present items) = .ok present := by
  induction present generalizing items with
  | nil => rfl
  | cons index present ih =>
      cases items with
      | nil => cases h
      | cons item items =>
          have hrest := ih (Nat.succ.inj h)
          unfold indices at hrest ⊢
          have hrows : rows key (index :: present) (item :: items)
              = (Key.listItem key index, item) :: rows key present items := rfl
          rw [hrows, List.mapM_cons, Key.drop_listItem, Key.ofIndexSelector_indexSelector, hrest]
          rfl

/-- Rows that indices are read from are rows of items. -/
theorem rows_of_indices {found : List Row} {present : List Int64}
    (hstem : ∀ row ∈ found, Key.itemStem key .list <+: row.1)
    (h : indices key found = .ok present) :
    present.length = (found.map (·.2)).length ∧ rows key present (found.map (·.2)) = found := by
  induction found generalizing present with
  | nil =>
      cases h
      exact ⟨rfl, rfl⟩
  | cons row found ih =>
      rcases List.forall_mem_cons.mp hstem with ⟨hfirst, hrest⟩
      unfold indices at h
      rw [List.mapM_cons] at h
      rcases bind_eq_ok_iff.mp h with ⟨index, hindex, h⟩
      rcases bind_eq_ok_iff.mp h with ⟨others, hothers, h⟩
      cases h
      rcases ih hrest hothers with ⟨hlength, hrows⟩
      rcases hfirst with ⟨selector, hselector⟩
      have hkey : Key.listItem key index = row.1 := by
        rw [← hselector, List.drop_left, Key.ofIndexSelector_eq_ok_iff] at hindex
        rw [← hselector, hindex]
        rfl
      refine ⟨by simpa using hlength, ?_⟩
      have hcons : rows key (index :: others) ((row :: found).map (·.2))
          = (Key.listItem key index, row.2) :: rows key others (found.map (·.2)) := rfl
      rw [hcons, hrows, hkey]

/-! ## Lists -/

/-- The indices of a repaired list. -/
def settledIndices : List Int64 → List Int64
  | [] => []
  | first :: rest => consecutive first (rest.length + 1)

/-- The metadata of so many items at consecutive indices. -/
def consecutiveHandle (first : Int64) (count : Nat) : ListHandle :=
  ⟨first, first + Int64.ofNat count - 1, Int64.ofNat count⟩

/-- The metadata of a repaired list. -/
def settledHandle : List Int64 → ListHandle
  | [] => .empty
  | first :: rest => consecutiveHandle first (rest.length + 1)

/-- Whether there is an index behind those of a repaired list. -/
def Extensible : List Int64 → Prop
  | [] => True
  | first :: rest => first.toInt + (rest.length + 1 : Nat) ≤ 9223372036854775807

/-- New metadata is made of the first index and the number of items, or breaks
off. -/
theorem handleFrom_cases (first : Int64) (count : Nat) :
    handleFrom first count = pure (consecutiveHandle first count) ∨
      ∃ cause, handleFrom first count = throw (.aborted cause) := by
  unfold handleFrom consecutiveHandle
  by_cases hnext : FitsInt64 (first.toInt + (Int64.ofNat count).toInt)
  · rw [sum_of_fits hnext, pure_bind]
    by_cases htail : FitsInt64 ((Int64.ofInt (first.toInt + (Int64.ofNat count).toInt)).toInt - 1)
    · left
      rw [difference_of_fits htail, Int64.ofInt_sub, Int64.ofInt_toInt, Int64.ofInt_add,
        Int64.ofInt_toInt, Int64.ofInt_toInt]
      rfl
    · exact Or.inr ⟨.difference, by rw [difference_of_not_fits htail]; rfl⟩
  · exact Or.inr ⟨.sum, by rw [sum_of_not_fits hnext]; rfl⟩

/-- Metadata can be made if there is an index behind the items. -/
theorem handleFrom_eq {first : Int64} {rest : List Int64} (h : Extensible (first :: rest))
    (hcount : (first :: rest).length < 9223372036854775808) :
    handleFrom first (first :: rest).length = pure (settledHandle (first :: rest)) := by
  have hroom : first.toInt + (rest.length + 1 : Nat) ≤ 9223372036854775807 := h
  have hlow : -9223372036854775808 ≤ first.toInt := first.le_toInt
  have hlength : (Int64.ofNat (first :: rest).length).toInt = (rest.length + 1 : Nat) :=
    Int64.toInt_ofNat_of_lt hcount
  obtain ⟨next, hsum, hnext⟩ :=
    exists_sum_eq (a := first) (i := (Int64.ofNat (first :: rest).length).toInt)
      ⟨by omega, by omega⟩
  have hback : FitsInt64 (next.toInt - 1) := ⟨by omega, by omega⟩
  rw [handleFrom, hsum, pure_bind, difference_of_fits hback, hnext, hlength]
  rw [settledHandle, consecutiveHandle, Int64.ofInt_sub, Int64.ofInt_add, Int64.ofInt_toInt]
  rfl

/-- Without an index behind the items no metadata is made. -/
theorem handleFrom_eq_throw {first : Int64} {rest : List Int64} (h : ¬ Extensible (first :: rest))
    (hcount : (first :: rest).length < 9223372036854775808) :
    handleFrom first (first :: rest).length = throw (.aborted .sum) := by
  have hroom : ¬ first.toInt + (rest.length + 1 : Nat) ≤ 9223372036854775807 := h
  have hlength : (Int64.ofNat (first :: rest).length).toInt = (rest.length + 1 : Nat) :=
    Int64.toInt_ofNat_of_lt hcount
  have hnot : ¬ FitsInt64 (first.toInt + (Int64.ofNat (first :: rest).length).toInt) := by
    rintro ⟨_, hhigh⟩
    omega
  rw [handleFrom, sum_of_not_fits hnot]
  rfl

@[simp]
theorem length_settledIndices (present : List Int64) :
    (settledIndices present).length = present.length := by
  cases present <;> simp [settledIndices]

/-- Settled indices are settled. -/
theorem settledIndices_settledIndices (present : List Int64) :
    settledIndices (settledIndices present) = settledIndices present := by
  cases present with
  | nil => rfl
  | cons first rest => simp [settledIndices, consecutive]

theorem settledHandle_settledIndices (present : List Int64) :
    settledHandle (settledIndices present) = settledHandle present := by
  cases present with
  | nil => rfl
  | cons first rest => simp [settledIndices, settledHandle, consecutive]

theorem extensible_settledIndices (present : List Int64) :
    Extensible (settledIndices present) ↔ Extensible present := by
  cases present with
  | nil => exact Iff.rfl
  | cons first rest => simp [settledIndices, Extensible, consecutive]

/-- Increasing indices leave room for as many consecutive ones. -/
theorem room_of_ascending {first : Int64} {rest : List Int64} (h : Ascending (first :: rest)) :
    first.toInt + (rest.length + 1 : Nat) ≤ 9223372036854775808 := by
  induction rest generalizing first with
  | nil =>
      have hhigh : first.toInt ≤ 9223372036854775807 := first.toInt_le
      simp only [List.length_nil]
      omega
  | cons second rest ih =>
      rcases List.pairwise_cons.mp h with ⟨hfirst, hrest⟩
      have hlt := hfirst second List.mem_cons_self
      have hroom := ih hrest
      rw [List.length_cons]
      omega

/-- The metadata of a repaired list describes its items. -/
theorem describes_settledHandle {present : List Int64} (h : Ascending present)
    (hcount : present.length < 9223372036854775808) :
    Describes (settledHandle present) present.length := by
  cases present with
  | nil => exact describes_empty
  | cons first rest =>
      rw [List.length_cons] at hcount ⊢
      have hroom := room_of_ascending h
      have hlow : -9223372036854775808 ≤ first.toInt := first.le_toInt
      have hlength : (Int64.ofNat (rest.length + 1)).toInt = (rest.length + 1 : Nat) :=
        Int64.toInt_ofNat_of_lt hcount
      refine ⟨hlength, ?_, fun hzero => by cases hzero⟩
      have hone : (1 : Int64).toInt = 1 := rfl
      simp only [settledHandle, consecutiveHandle]
      rw [Int64.toInt_sub, Int64.toInt_add, hlength, hone, Int.bmod_sub_bmod]
      exact Int.bmod_eq_of_le (by norm_num; omega) (by norm_num; omega)

/-- Whether a list with items at the given indices was repaired: its items lie
at settled indices, and its metadata is theirs. -/
structure Settled (table : Table) (key : String) (handle : ListHandle)
    (expireAt : Option Instant) (present : List Int64) (items : List Bytes) (changed : Bool)
    (after : Table) : Prop where
  rows : after.rowsUnder (Key.itemStem key .list) = Deque.rows key (settledIndices present) items
  elsewhere : ∀ physical ≠ Key.ofText key, ¬ Key.itemStem key .list <+: physical →
    after.get? physical = table.get? physical
  metadata : if settledHandle present = handle then
      after.get? (Key.ofText key) = table.get? (Key.ofText key)
    else after.HasFrame (Key.ofText key) ⟨.list (settledHandle present), expireAt⟩
  kept : changed = false → after = table
  changed : changed = true → present ≠ settledIndices present ∨ settledHandle present ≠ handle

/-- The report of a repaired list. -/
def settledReport (handle : ListHandle) (present : List Int64) (moved : Bool) : Report :=
  ⟨.list, handle.length.toInt.toNat, (settledHandle present).length.toUInt64.toNat,
    moved || settledHandle present != handle⟩

/-- The metadata of a repaired list is written if it was another one. -/
theorem run_settle {present : List Int64} {items : List Bytes} {closed : Table} {moved : Bool}
    (handle : ListHandle) (hascending : Ascending present)
    (hcount : present.length < 9223372036854775808)
    (hexpireAt : Frame.asStored expireAt = expireAt)
    (hclosed : closed.rowsUnder (Key.itemStem key .list) = rows key (settledIndices present) items)
    (hothers : ∀ physical, ¬ Key.itemStem key .list <+: physical →
      closed.get? physical = table.get? physical)
    (hkept : moved = false → closed = table)
    (hmoved : moved = true → present ≠ settledIndices present) :
    ∃ after,
      (do
        if settledHandle present ≠ handle then
          Store.write (Key.ofText key) (.list (settledHandle present)) expireAt
        return settledReport handle present moved : StoreM Report).run (ofTable closed) =
        (.ok (settledReport handle present moved), ofTable after) ∧
      Settled table key handle expireAt present items (settledReport handle present moved).changed
        after := by
  by_cases hsame : settledHandle present = handle
  · have hflag : (settledReport handle present moved).changed = moved := by
      simp [settledReport, hsame]
    refine ⟨closed, ?_, hclosed, fun physical _ => hothers physical, ?_, ?_, ?_⟩
    · rw [if_neg (not_not.mpr hsame)]
      rfl
    · rw [if_pos hsame]
      exact hothers _ (Key.not_itemStem_prefix_ofText key .list)
    · rwa [hflag]
    · rw [hflag]
      exact fun h => Or.inl (hmoved h)
  · have hflag : (settledReport handle present moved).changed = true := by
      simp [settledReport, hsame]
    have hdescribes := describes_settledHandle hascending hcount
    have hwritable : ∃ contents,
        Frame.encode ⟨.list (settledHandle present), expireAt⟩ = .ok contents :=
      Frame.exists_encode rfl hexpireAt
    rcases hwritable with ⟨contents, hcontents⟩
    refine ⟨closed.insert (Key.ofText key) contents, ?_, ?_, ?_, ?_, ?_, fun _ => Or.inr hsame⟩
    · rw [if_pos hsame, run_bind_ok (run_write hcontents)]
      rfl
    · rw [← hclosed]
      apply Table.rowsUnder_congr
      rintro physical hstem
      apply Table.get?_insert_of_ne
      rintro rfl
      exact Key.not_itemStem_prefix_ofText key .list hstem
    · intro physical hne hstem
      rw [Table.get?_insert_of_ne closed contents hne.symm, hothers physical hstem]
    · rw [if_neg hsame]
      exact .insert closed _ hcontents hdescribes.storable hexpireAt
    · rw [hflag]
      intro h
      cases h

/-- The first of increasing indices is the smallest one. -/
theorem le_of_ascending {first : Int64} {rest : List Int64} (h : Ascending (first :: rest)) :
    ∀ index ∈ first :: rest, first.toInt + (0 : Nat) ≤ index.toInt := by
  intro index hindex
  rcases List.mem_cons.mp hindex with rfl | hindex
  · omega
  · have hlt := (List.pairwise_cons.mp h).1 index hindex
    omega

/-- A list without an index behind its items is not repaired. -/
theorem exists_run_repairList_aborted {present : List Int64} {items : List Bytes}
    (handle : ListHandle) (expireAt : Option Instant)
    (hrows : table.rowsUnder (Key.itemStem key .list) = rows key present items)
    (hlength : present.length = items.length) (hascending : Ascending present)
    (hcount : present.length < 9223372036854775808) (hnot : ¬ Extensible present) :
    ∃ closed, (repairList key handle expireAt).run (ofTable table) =
      (.error (.aborted .sum), ofTable closed) := by
  have hscan := run_scan table (Key.itemStem key .list)
  have hread : (lift (indices key (table.rowsUnder (Key.itemStem key .list)))).run (ofTable table)
      = (.ok present, ofTable table) :=
    run_lift_ok (by rw [hrows]; exact indices_rows key hlength) _
  rw [repairList, run_bind_ok hscan, run_bind_ok hread]
  cases present with
  | nil => exact absurd trivial hnot
  | cons first rest =>
      obtain ⟨moved, closed, hrun, _⟩ := @run_closeHoles table key first first 0 (first :: rest)
        items hrows (by omega) hascending (by simp) (le_of_ascending hascending)
      refine ⟨closed, ?_⟩
      dsimp only
      rw [run_bind_ok hrun, handleFrom_eq_throw hnot hcount]
      rfl

/-- A list whose indices can be read is repaired: its items move to consecutive
indices, and its metadata is written if it was another one. -/
theorem run_repairList {present : List Int64} {items : List Bytes} (handle : ListHandle)
    (hrows : table.rowsUnder (Key.itemStem key .list) = rows key present items)
    (hlength : present.length = items.length) (hascending : Ascending present)
    (hcount : present.length < 9223372036854775808) (hextensible : Extensible present)
    (hexpireAt : Frame.asStored expireAt = expireAt) :
    ∃ report after, (repairList key handle expireAt).run (ofTable table) =
        (.ok report, ofTable after) ∧
      Settled table key handle expireAt present items report.changed after := by
  have hscan := run_scan table (Key.itemStem key .list)
  have hread : (lift (indices key (table.rowsUnder (Key.itemStem key .list)))).run (ofTable table)
      = (.ok present, ofTable table) :=
    run_lift_ok (by rw [hrows]; exact indices_rows key hlength) _
  rw [repairList, run_bind_ok hscan, run_bind_ok hread]
  cases present with
  | nil =>
      rcases run_settle handle hascending hcount hexpireAt hrows (fun _ _ => rfl)
        (fun _ => rfl : false = false → table = table) (fun h => by cases h)
        with ⟨after, hrun, hafter⟩
      exact ⟨_, after, hrun, hafter⟩
  | cons first rest =>
      have hclose := @run_closeHoles table key first first 0 (first :: rest) items hrows
        (by omega) hascending (by simp) (le_of_ascending hascending)
      rcases hclose with ⟨moved, closed, hrun, hclosed, hothers, hkept, hmoved⟩
      rw [Nat.zero_add, List.length_cons] at hclosed
      rcases run_settle handle hascending hcount hexpireAt hclosed hothers hkept hmoved
        with ⟨after, hend, hafter⟩
      refine ⟨settledReport handle (first :: rest) moved, after, ?_, hafter⟩
      dsimp only
      rw [run_bind_ok hrun, handleFrom_eq hextensible hcount]
      exact hend

namespace Settled

variable {handle : ListHandle} {present : List Int64} {items : List Bytes} {changed : Bool}
  {after : Table}

theorem frame (h : Settled table key handle expireAt present items changed after)
    (hframe : table.HasFrame (Key.ofText key) ⟨.list handle, expireAt⟩) :
    after.HasFrame (Key.ofText key) ⟨.list (settledHandle present), expireAt⟩ := by
  have hmetadata := h.metadata
  split at hmetadata
  · rename_i hsame
    rw [hsame]
    exact hframe.congr hmetadata
  · exact hmetadata

/-- The report tells whether anything changed. -/
theorem changed_iff (h : Settled table key handle expireAt present items changed after)
    (hrows : table.rowsUnder (Key.itemStem key .list) = Deque.rows key present items)
    (hlength : present.length = items.length)
    (hframe : table.HasFrame (Key.ofText key) ⟨.list handle, expireAt⟩) :
    changed = true ↔ after ≠ table := by
  constructor
  · rintro hchanged rfl
    rcases h.changed hchanged with hmoved | hwritten
    · have hsame := h.rows
      rw [hrows] at hsame
      exact hmoved (rows_injective hlength (by simpa using hlength) hsame).1
    · have hvalue := congrArg Frame.value ((h.frame hframe).unique hframe)
      exact hwritten (Value.list.inj hvalue)
  · intro hafter
    by_contra hchanged
    exact hafter (h.kept (by simpa using hchanged))

/-- A second repair finds nothing to do. -/
theorem again (h : Settled table key handle expireAt present items changed after)
    (hlength : present.length = items.length)
    (hcount : present.length < 9223372036854775808) (hextensible : Extensible present)
    (hexpireAt : Frame.asStored expireAt = expireAt) :
    ∃ report, (repairList key (settledHandle present) expireAt).run (ofTable after) =
        (.ok report, ofTable after) ∧ report.changed = false := by
  have hsettled : (settledIndices present).length = items.length := by
    rw [length_settledIndices, hlength]
  have hascending : Ascending (settledIndices present) := by
    apply ascending_of_sorted hsettled
    rw [← h.rows]
    exact Table.sorted_rowsUnder after _
  rcases run_repairList (settledHandle present) h.rows hsettled hascending (by simpa using hcount)
    ((extensible_settledIndices present).mpr hextensible) hexpireAt with ⟨report, final, hrun, hfinal⟩
  have hchanged : report.changed = false := by
    by_contra hchanged
    rcases hfinal.changed (by simpa using hchanged) with hmoved | hwritten
    · exact hmoved (settledIndices_settledIndices present).symm
    · exact hwritten (settledHandle_settledIndices present)
  refine ⟨report, ?_, hchanged⟩
  rw [hrun, hfinal.kept hchanged]

end Settled

/-! ## Counted structures -/

/-- Whether metadata counts the rows under its stem, and is all that changed. -/
structure Recounted (table : Table) (key : String) (marker : Key.Marker)
    (metadata : UInt64 → Value) (expireAt : Option Instant) (after : Table) : Prop where
  frame : ∃ count : UInt64, count.toNat = after.countUnder (Key.itemStem key marker) ∧
    after.HasFrame (Key.ofText key) ⟨metadata count, expireAt⟩
  elsewhere : ∀ physical ≠ Key.ofText key, after.get? physical = table.get? physical

/-- Metadata that counts the rows is left as it is. -/
theorem run_recount_same {marker : Key.Marker} {before : UInt64} (metadata : UInt64 → Value)
    (h : before.toNat = table.countUnder (Key.itemStem key marker)) :
    (recount key marker before metadata expireAt).run (ofTable table) =
      (.ok ⟨(metadata before).kind, before.toNat, before.toNat, false⟩, ofTable table) := by
  have hsame : before = UInt64.ofNat (table.countUnder (Key.itemStem key marker)) := by
    rw [← h, UInt64.ofNat_toNat]
  rw [recount, run_bind_ok (run_countItems table key marker), ← hsame]
  simp only [ne_eq, not_true_eq_false, if_false, bne_self_eq_false]
  rfl

/-- A count is taken anew, and the metadata written if it was another one. -/
theorem ends_recount {marker : Key.Marker} {before : UInt64} {metadata : UInt64 → Value}
    (hframe : table.HasFrame (Key.ofText key) ⟨metadata before, expireAt⟩)
    (hstorable : ∀ count, (metadata count).Storable)
    (hinjective : ∀ a b, metadata a = metadata b → a = b)
    (hcount : table.countUnder (Key.itemStem key marker) < 9223372036854775808) :
    Ends table (recount key marker before metadata expireAt) fun outcome after =>
      ∀ report, outcome = .ok report → Recounted table key marker metadata expireAt after ∧
        (report.changed = true ↔ after ≠ table) := by
  refine .bind_run (run_countItems table key marker) ?_
  have hnumber : (UInt64.ofNat (table.countUnder (Key.itemStem key marker))).toNat
      = table.countUnder (Key.itemStem key marker) :=
    UInt64.toNat_ofNat_of_lt' (by norm_num; omega)
  generalize UInt64.ofNat (table.countUnder (Key.itemStem key marker)) = count at hnumber
  dsimp only
  by_cases hsame : before = count
  · subst hsame
    rw [if_neg (not_not.mpr rfl)]
    refine .pure fun report hreport => ?_
    cases hreport
    exact ⟨⟨⟨before, hnumber, hframe⟩, fun _ _ => rfl⟩, by simp⟩
  · rw [if_pos hsame]
    cases hencode : Frame.encode ⟨metadata count, expireAt⟩ with
    | error fault => exact .bind_error (run_write_error hencode) fun _ h => by cases h
    | ok contents =>
        refine .bind_run (run_write hencode) (.pure fun report hreport => ?_)
        cases hreport
        have hwritten : (table.insert (Key.ofText key) contents).HasFrame (Key.ofText key)
            ⟨metadata count, expireAt⟩ :=
          .insert table _ hencode (hstorable count) hframe.asStored_expireAt
        refine ⟨⟨⟨count, ?_, hwritten⟩, fun physical hne => ?_⟩, ?_⟩
        · rw [Table.countUnder_insert_outside table contents
            (Key.not_itemStem_prefix_ofText key marker), hnumber]
        · exact Table.get?_insert_of_ne table contents hne.symm
        · have hchanged : table.insert (Key.ofText key) contents ≠ table := by
            intro heq
            rw [heq] at hwritten
            have hvalue := congrArg Frame.value (hframe.unique hwritten)
            exact hsame (hinjective _ _ hvalue)
          simp [hchanged, hsame]

/-! ## Any structure -/

/-- What repair makes of what a key holds. -/
def Restored (table : Table) (key : String) (frame : Frame) (after : Table) : Prop :=
  match frame.value.marker? with
  | none => after = table
  | some .list => ∃ (present : List Int64) (items : List Bytes),
      present.length = items.length ∧ Ascending present ∧
      table.rowsUnder (Key.itemStem key .list) = rows key present items ∧
      after.rowsUnder (Key.itemStem key .list) = rows key (settledIndices present) items ∧
      Describes (settledHandle present) items.length ∧
      after.HasFrame (Key.ofText key) ⟨.list (settledHandle present), frame.expireAt⟩ ∧
      ∀ physical ≠ Key.ofText key, ¬ Key.itemStem key .list <+: physical →
        after.get? physical = table.get? physical
  | some marker =>
      Recounted table key marker (fun count => frame.value.withCount count) frame.expireAt after

/-- A repaired list needs no second repair. -/
theorem ends_repair_list {handle : ListHandle}
    (hframe : table.HasFrame (Key.ofText key) ⟨.list handle, expireAt⟩)
    (hcount : table.countUnder (Key.itemStem key .list) < 9223372036854775808) :
    Ends table (repairList key handle expireAt) fun outcome after =>
      ∀ report, outcome = .ok report → Restored table key ⟨.list handle, expireAt⟩ after ∧
        (report.changed = true ↔ after ≠ table) ∧
        ∃ again, (repair key).run (ofTable after) = (.ok again, ofTable after) ∧
          again.changed = false := by
  have hexpireAt := hframe.asStored_expireAt
  have hstem : ∀ row ∈ table.rowsUnder (Key.itemStem key .list),
      Key.itemStem key .list <+: row.1 :=
    fun row hrow => ((Table.mem_rowsUnder table _ row).mp hrow).2
  cases hindices : indices key (table.rowsUnder (Key.itemStem key .list)) with
  | error fault =>
      exact .bind_run (run_scan table _) (.bind_error (run_lift_error hindices _)
        fun _ h => by cases h)
  | ok present =>
      rcases rows_of_indices hstem hindices with ⟨hlength, hrows⟩
      have hsorted := Table.sorted_rowsUnder table (Key.itemStem key .list)
      rw [← hrows] at hsorted
      have hascending := ascending_of_sorted hlength hsorted
      have hshort : present.length < 9223372036854775808 := by
        rw [hlength, List.length_map]
        exact hcount
      by_cases hextensible : Extensible present
      swap
      · rcases exists_run_repairList_aborted handle expireAt hrows.symm hlength hascending hshort
          hextensible with ⟨closed, hrun⟩
        exact .of_run hrun fun answer hanswer => by cases hanswer
      rcases run_repairList handle hrows.symm hlength hascending hshort hextensible hexpireAt
        with ⟨report, after, hrun, hsettled⟩
      refine .of_run hrun fun answer hanswer => ?_
      cases hanswer
      have hframe' := hsettled.frame hframe
      have hdescribes := describes_settledHandle hascending hshort
      rw [hlength] at hdescribes
      rcases hsettled.again hlength hshort hextensible hexpireAt with ⟨again, hagain, hkept⟩
      refine ⟨⟨present, _, hlength, hascending, hrows.symm, hsettled.rows, hdescribes, hframe',
        hsettled.elsewhere⟩, hsettled.changed_iff hrows.symm hlength hframe, again, ?_, hkept⟩
      rw [repair, run_bind_ok (run_readExisting hframe')]
      exact hagain

/-- A repaired structure that counts its items needs no second repair. -/
theorem ends_repair_counted {marker : Key.Marker} {before : UInt64} {metadata : UInt64 → Value}
    (hframe : table.HasFrame (Key.ofText key) ⟨metadata before, expireAt⟩)
    (hstorable : ∀ count, (metadata count).Storable)
    (hinjective : ∀ a b, metadata a = metadata b → a = b)
    (hcount : table.countUnder (Key.itemStem key marker) < 9223372036854775808)
    (hrepair : ∀ (after : Table) (count : UInt64),
      after.HasFrame (Key.ofText key) ⟨metadata count, expireAt⟩ →
      (repair key).run (ofTable after) =
        (recount key marker count metadata expireAt).run (ofTable after)) :
    Ends table (recount key marker before metadata expireAt) fun outcome after =>
      ∀ report, outcome = .ok report → Recounted table key marker metadata expireAt after ∧
        (report.changed = true ↔ after ≠ table) ∧
        ∃ again, (repair key).run (ofTable after) = (.ok again, ofTable after) ∧
          again.changed = false := by
  refine (ends_recount hframe hstorable hinjective hcount).conseq ?_
  intro outcome after hafter report hreport
  rcases hafter report hreport with ⟨hrecounted, hchanged⟩
  rcases hrecounted.frame with ⟨count, hnumber, hframe'⟩
  have hrun := @run_recount_same after key expireAt marker count metadata hnumber
  exact ⟨hrecounted, hchanged, _, (hrepair after count hframe').trans hrun, rfl⟩

/-- Repair restores a structure, tells whether anything changed, and has nothing
left to do. -/
theorem ends_repair {frame : Frame} (hframe : table.HasFrame (Key.ofText key) frame)
    (hcount : ∀ marker, frame.value.marker? = some marker →
      table.countUnder (Key.itemStem key marker) < 9223372036854775808) :
    Ends table (repair key) fun outcome after => ∀ report, outcome = .ok report →
      Restored table key frame after ∧ (report.changed = true ↔ after ≠ table) ∧
      ∃ again, (repair key).run (ofTable after) = (.ok again, ofTable after) ∧
        again.changed = false := by
  have hread := run_readExisting hframe
  rcases frame with ⟨value, expireAt⟩
  cases value with
  | list handle => exact .bind_run hread (ends_repair_list hframe (hcount .list rfl))
  | map count =>
      refine .bind_run hread (ends_repair_counted hframe (fun _ => trivial)
        (fun a b h => by cases h; rfl) (hcount .map rfl) fun after count hafter => ?_)
      rw [repair, run_bind_ok (run_readExisting hafter)]
  | set count =>
      refine .bind_run hread (ends_repair_counted hframe (fun _ => trivial)
        (fun a b h => by cases h; rfl) (hcount .set rfl) fun after count hafter => ?_)
      rw [repair, run_bind_ok (run_readExisting hafter)]
  | series count =>
      refine .bind_run hread (ends_repair_counted hframe (fun _ => trivial)
        (fun a b h => by cases h; rfl) (hcount .series rfl) fun after count hafter => ?_)
      rw [repair, run_bind_ok (run_readExisting hafter)]
  | bloom handle =>
      refine .bind_run hread (@ends_repair_counted table key expireAt .bloom handle.count
        (fun count => .bloom { handle with count }) hframe (fun _ => trivial)
        (fun a b h => by cases h; rfl) (hcount .bloom rfl) fun after count hafter => ?_)
      rw [repair, run_bind_ok (run_readExisting hafter)]
  | _ =>
      refine .bind_run hread (.pure fun report hreport => ?_)
      have hreport := Except.ok.inj hreport
      refine ⟨rfl, ?_, report, ?_, ?_⟩
      · rw [← hreport]
        simp
      · rw [repair, run_bind_ok hread, ← hreport]
        rfl
      · rw [← hreport]

end Repair

/-! ## Consistent keys -/

namespace Holds

open Repair

variable {table : Table} {key : String} {steps : Nat} {expireAt : Option Instant}

/-- Metadata that describes items is that of a repaired list. -/
theorem settledHandle_of_describes {handle : ListHandle} {count : Nat}
    (h : Deque.Describes handle count) (hcount : count < 9223372036854775808) :
    settledHandle (Deque.consecutive handle.head count) = handle := by
  cases count with
  | zero =>
      rw [h.empty rfl]
      rfl
  | succ count =>
      have hascending := Deque.ascending_consecutive h.room
      have hsettled := describes_settledHandle hascending (by rwa [Deque.length_consecutive])
      rw [Deque.length_consecutive] at hsettled
      have hhead : (settledHandle (Deque.consecutive handle.head (count + 1))).head = handle.head :=
        rfl
      have htail := hsettled.tail
      rw [hhead, ← h.tail] at htail
      have hlength := hsettled.length
      rw [← h.length] at hlength
      generalize settledHandle (Deque.consecutive handle.head (count + 1)) = other
        at hhead htail hlength
      cases other
      cases handle
      cases hhead
      cases Int64.toInt_inj.mp htail
      cases Int64.toInt_inj.mp hlength
      rfl

/-- A list that ends in front of the last index has an index behind its items. -/
theorem extensible_of_describes {handle : ListHandle} {count : Nat}
    (h : Deque.Describes handle count) (htail : handle.tail.toInt < 9223372036854775807) :
    Extensible (Deque.consecutive handle.head count) := by
  have hend := h.tail
  cases count with
  | zero => exact trivial
  | succ count =>
      show handle.head.toInt + ((Deque.consecutive (handle.head + 1) count).length + 1 : Nat) ≤ _
      rw [Deque.length_consecutive]
      omega

/-- Where the metadata agrees with the items, repair does nothing. -/
theorem run_repair {frame : Frame} (h : Holds table key steps expireAt)
    (hsteps : steps < 9223372036854775808)
    (hframe : table.HasFrame (Key.ofText key) frame) :
    ∃ report, (repair key).run (ofTable table) = (.ok report, ofTable table) ∧
      report.changed = false := by
  rcases frame with ⟨value, expireAt'⟩
  rw [repair, run_bind_ok (run_readExisting hframe)]
  cases value with
  | list handle =>
      rcases h.list hframe with ⟨items, pushes, hstored, hcount, hnear, hpushes⟩
      have hdescribes := hstored.describes
      have hextensible := extensible_of_describes hdescribes (hnear.tail_lt (by omega))
      have hrows := hstored.spread.rowsUnder_eq hdescribes.room
      have hlength := Deque.length_consecutive handle.head items.length
      have hascending := Deque.ascending_consecutive hdescribes.room
      rcases run_repairList handle hrows hlength hascending (by omega) hextensible
        hframe.asStored_expireAt with ⟨report, after, hrun, hsettled⟩
      have hchanged : report.changed = false := by
        by_contra hchanged
        rcases hsettled.changed (by simpa using hchanged) with hmoved | hwritten
        · apply hmoved
          cases items with
          | nil => rfl
          | cons item items => simp [Deque.consecutive, settledIndices]
        · exact hwritten (settledHandle_of_describes hdescribes (by omega))
      refine ⟨report, ?_, hchanged⟩
      rw [hsettled.kept hchanged] at hrun
      exact hrun
  | map count =>
      have htallied := (@counted table key steps expireAt .map count expireAt' h hframe).1
      exact ⟨_, run_recount_same .map htallied.rows.symm, rfl⟩
  | set count =>
      have htallied := (@counted table key steps expireAt .set count expireAt' h hframe).1
      exact ⟨_, run_recount_same .set htallied.rows.symm, rfl⟩
  | series count =>
      have htallied := (@counted table key steps expireAt .series count expireAt' h hframe).1
      exact ⟨_, run_recount_same .series htallied.rows.symm, rfl⟩
  | bloom handle =>
      have htallied := (h.bloom hframe).1
      exact ⟨_, run_recount_same (fun count => .bloom { handle with count }) htallied.rows.symm, rfl⟩
  | _ => exact ⟨⟨_, 0, 0, false⟩, rfl, rfl⟩

end Holds
end StructuredStore
