import StructuredStore.Proofs.Engine.Stopping
import StructuredStore.Proofs.Repair.Restoration

/-!
# Repairing what a repair left

Closing a hole of a list takes a copy and a removal.  A repair that a failing
call stops anywhere but at the removal leaves the items as they were, at other
increasing indices, and the next repair ends where the stopped one would have
ended.  A repair that stops at the removal leaves one item at two indices, and
the next repair keeps it twice.

Main results:

- `stops_closeHoles`, `stops_repair`: what a repair leaves where it stops.
- `repair_resumes`: what the next repair makes of it.
-/

namespace StructuredStore.Repair

open Engine Store Deque

variable {table closed left : Table} {key : String} {expireAt : Option Instant}
  {present : List Int64} {items : List Bytes}

/-! ## What a stopped repair leaves -/

/-- The items that a list shows after a repair that stopped at a call: all of
them once, but for the one whose removal failed. -/
inductive Shows (items : List Bytes) : Call → List Bytes → Prop
  | once {call : Call} (h : call ≠ .delete) : Shows items call items
  | twice (front : List Bytes) (item : Bytes) (back : List Bytes)
      (h : items = front ++ item :: back) : Shows items .delete (front ++ item :: item :: back)

/-- Whether items lie at increasing indices from the first one of the given
indices on, and other stems are as they were. -/
structure Scattered (table : Table) (key : String) (present : List Int64) (items : List Bytes)
    (left : Table) : Prop where
  rows : ∃ indices, indices.length = items.length ∧ Ascending indices ∧
    indices.head? = present.head? ∧
    left.rowsUnder (Key.itemStem key .list) = Deque.rows key indices items
  elsewhere : table.AgreeOff (fun physical => Key.itemStem key .list <+: physical) left

/-- What a repair leaves that stopped at a call. -/
def Halted (table : Table) (key : String) (present : List Int64) (items : List Bytes)
    (call : Call) (left : Table) : Prop :=
  ∃ shown, Shows items call shown ∧ Scattered table key present shown left

/-- Whether items lie at the consecutive indices of a repaired list, and other
stems are as they were. -/
structure Closed (table : Table) (key : String) (present : List Int64) (items : List Bytes)
    (closed : Table) : Prop where
  rows : closed.rowsUnder (Key.itemStem key .list) = Deque.rows key (settledIndices present) items
  elsewhere : table.AgreeOff (fun physical => Key.itemStem key .list <+: physical) closed

/-- The rows of a list without holes are determined by its items. -/
theorem Closed.unique {other : Table} (h : Closed table key present items closed)
    (hother : Closed table key present items other) : closed = other := by
  apply Table.ext_get?
  intro physical
  by_cases hstem : Key.itemStem key .list <+: physical
  · apply Option.ext
    intro contents
    have hclosed := Table.mem_rowsUnder closed (Key.itemStem key .list) (physical, contents)
    have hsame := Table.mem_rowsUnder other (Key.itemStem key .list) (physical, contents)
    rw [h.rows, ← hother.rows, hsame] at hclosed
    simpa [hstem] using hclosed.symm
  · rw [h.elsewhere physical hstem, hother.elsewhere physical hstem]

/-- Indices with the same first one and as many of them are settled alike. -/
theorem settledIndices_congr {indices : List Int64} (hhead : indices.head? = present.head?)
    (hlength : indices.length = present.length) :
    settledIndices indices = settledIndices present := by
  cases indices with
  | nil =>
      cases present with
      | nil => rfl
      | cons first rest => cases hlength
  | cons first rest =>
      cases present with
      | nil => cases hlength
      | cons first' rest' =>
          cases hhead
          rw [settledIndices, settledIndices, Nat.succ.inj hlength]

/-- The metadata of a repaired list depends on no more than its settled indices. -/
theorem settledHandle_congr {indices : List Int64}
    (h : settledIndices indices = settledIndices present) :
    settledHandle indices = settledHandle present := by
  rw [← settledHandle_settledIndices indices, h, settledHandle_settledIndices]

/-! ## Copies -/

/-- An item that is copied to a free index in front of its own lies at both. -/
theorem rowsUnder_copy {front back : List Int64} {first last : List Bytes} {source target : Int64}
    {item : Bytes} (hlength : front.length = first.length)
    (hrows : table.rowsUnder (Key.itemStem key .list) =
      rows key (front ++ source :: back) (first ++ item :: last))
    (hascending : Ascending (front ++ target :: source :: back)) :
    (table.insert (Key.listItem key target) item).rowsUnder (Key.itemStem key .list) =
      rows key (front ++ target :: source :: back) (first ++ item :: item :: last) := by
  have hmem : ∀ row : Row,
      row ∈ rows key (front ++ target :: source :: back) (first ++ item :: item :: last) ↔
        row = (Key.listItem key target, item) ∨
          (table.get? row.1 = some row.2 ∧ Key.itemStem key .list <+: row.1) := by
    intro row
    rw [mem_rows_append_cons hlength, ← Table.mem_rowsUnder, hrows, mem_rows_append_cons hlength]
    have hcons : rows key (source :: back) (item :: last)
        = (Key.listItem key source, item) :: rows key back last := rfl
    rw [hcons, List.mem_cons]
    tauto
  -- No item lay at the target.
  have hfree : table.get? (Key.listItem key target) = none := by
    by_contra htaken
    obtain ⟨contents, hget⟩ := Option.ne_none_iff_exists'.mp htaken
    have hrow := (Table.mem_rowsUnder table (Key.itemStem key .list)
      (Key.listItem key target, contents)).mpr ⟨hget, Key.itemStem_prefix_listItem key target⟩
    rw [hrows, rows_append hlength, List.mem_append] at hrow
    exact absurd rfl (ne_listItem_of_mem_rows hascending hrow)
  apply Table.rowsUnder_eq_of_sorted (sorted_rows key hascending _)
  rintro ⟨physical, contents⟩
  rw [hmem, Table.get?_insert]
  constructor
  · rintro (heq | ⟨hget, hstem⟩)
    · cases heq
      exact ⟨if_pos rfl, Key.itemStem_prefix_listItem key target⟩
    · refine ⟨?_, hstem⟩
      rw [if_neg, hget]
      rintro rfl
      rw [hfree] at hget
      cases hget
  · rintro ⟨hget, hstem⟩
    split at hget
    · rename_i hkey
      cases hget
      exact Or.inl (Prod.ext hkey.symm rfl)
    · exact Or.inr ⟨hget, hstem⟩

/-! ## Places to stop -/

/-- Items at increasing indices are halted before every call but a removal. -/
theorem halted_of_rows {indices : List Int64} {call : Call} (hcall : call ≠ .delete)
    (hlength : indices.length = items.length) (hascending : Ascending indices)
    (hhead : indices.head? = present.head?)
    (hrows : table.rowsUnder (Key.itemStem key .list) = rows key indices items) :
    Halted table key present items call table :=
  ⟨items, .once hcall, ⟨indices, hlength, hascending, hhead, hrows⟩, .refl _ table⟩

/-- What is left of a later table is left of an earlier one. -/
theorem Halted.trans {between : Table} {call : Call}
    (hagree : table.AgreeOff (fun physical => Key.itemStem key .list <+: physical) between)
    (h : Halted between key present items call left) :
    Halted table key present items call left := by
  obtain ⟨shown, hshows, hscattered⟩ := h
  exact ⟨shown, hshows, hscattered.rows, hagree.trans hscattered.elsewhere⟩

/-- A move stops before its copy, or with the item at both indices. -/
theorem stops_moveItem {place : Call → Table → Prop} {source target : Int64} {item : Bytes}
    (hitem : table.get? (Key.listItem key source) = some item)
    (hget : place .get table) (hset : place .set table)
    (hdelete : place .delete (table.insert (Key.listItem key target) item)) :
    Stops place table (moveItem key source target) (.ok true)
      ((table.insert (Key.listItem key target) item).erase (Key.listItem key source)) := by
  have hread : Stops place table (Engine.get (Key.listItem key source)) (.ok (some item)) table := by
    rw [← hitem]
    exact .get hget _
  exact .bind hread (.bind (.set hset _ _) (.bind (.delete hdelete _) (.pure true)))

/-- An index may stand in front of the one that it is to replace. -/
theorem ascending_both {front rest : List Int64} {target index : Int64}
    (h : Ascending (front ++ index :: rest)) (hlower : Ascending (front ++ target :: rest))
    (hne : target ≠ index) (hle : target.toInt ≤ index.toInt) :
    Ascending (front ++ target :: index :: rest) := by
  obtain ⟨hfront, hback, hacross⟩ := List.pairwise_append.mp h
  obtain ⟨_, hlowBack, hlowAcross⟩ := List.pairwise_append.mp hlower
  have hlt : target.toInt < index.toInt := by
    have hne' : target.toInt ≠ index.toInt := fun heq => hne (Int64.toInt_inj.mp heq)
    omega
  refine List.pairwise_append.mpr ⟨hfront, List.pairwise_cons.mpr ⟨?_, hback⟩, ?_⟩
  · intro other hother
    rcases List.mem_cons.mp hother with rfl | hother
    · exact hlt
    · exact (List.pairwise_cons.mp hlowBack).1 other hother
  · intro low hlow other hother
    rcases List.mem_cons.mp hother with rfl | hother
    · exact hlowAcross low hlow _ List.mem_cons_self
    · exact hacross low hlow other hother

/-- The items of a list are moved to consecutive indices, and a failing call
stops that between two moves, or within one. -/
theorem stops_closeHoles {first target : Int64} {done : Nat} {rest : List Int64}
    (hrows : table.rowsUnder (Key.itemStem key .list) =
      rows key (consecutive first (done + 1) ++ rest) items)
    (hlength : items.length = done + 1 + rest.length)
    (hascending : Ascending (consecutive first (done + 1) ++ rest))
    (htarget : rest ≠ [] → target.toInt = first.toInt + (done + 1 : Nat))
    (hle : ∀ index ∈ rest, first.toInt + (done + 1 : Nat) ≤ index.toInt)
    (hhead : present.head? = some first) (hcount : present.length = items.length) :
    ∃ moved closed, Closed table key present items closed ∧
      Stops (Halted table key present items) table (closeHoles key target rest) (.ok moved)
        closed := by
  induction rest generalizing table target done with
  | nil =>
      refine ⟨false, table, ⟨?_, .refl _ table⟩, .pure false⟩
      have hsettled : settledIndices present = consecutive first (done + 1) := by
        cases present with
        | nil => cases hhead
        | cons first' others =>
            cases hhead
            rw [List.length_cons, hlength, List.length_nil, Nat.add_zero] at hcount
            rw [settledIndices, hcount]
      rw [hrows, hsettled, List.append_nil]
  | cons index rest ih =>
      have htarget := htarget (List.cons_ne_nil _ _)
      have hindex := hle index List.mem_cons_self
      obtain ⟨hnextTarget, hnextLe⟩ := next_le_of_ascending hascending htarget (by omega)
      have hassoc := consecutive_append_cons htarget rest
      have hnextLength : items.length = done + 1 + 1 + rest.length := by
        rw [List.length_cons] at hlength
        omega
      by_cases hstay : target = index
      · subst hstay
        rw [hassoc] at hrows hascending
        obtain ⟨moved, closed, hclosed, hstops⟩ :=
          ih hrows hnextLength hascending hnextTarget hnextLe
        refine ⟨moved, closed, hclosed, ?_⟩
        rw [closeHoles, if_pos rfl]
        exact .bind (.pure false) (.bind hstops (.pure _))
      · have hlower := ascending_lower hascending htarget (by omega)
        obtain ⟨before, item, behind, hbefore, rfl⟩ :=
          @exists_next_item (done + 1) items (by omega)
        have hfront : (consecutive first (done + 1)).length = before.length := by
          rw [length_consecutive, hbefore]
        -- Between the copy and the removal the item lies at both indices.
        have hboth := ascending_both hascending hlower hstay (by omega)
        have hmove := rowsUnder_move hfront hrows hascending hlower hstay
        rw [hassoc] at hmove hlower
        have hmoved : table.AgreeOff (fun physical => Key.itemStem key .list <+: physical)
            ((table.insert (Key.listItem key target) item).erase (Key.listItem key index)) :=
          .trans (.insert (Key.itemStem_prefix_listItem key target) table item)
            (.erase (Key.itemStem_prefix_listItem key index) _)
        have hplace : ∀ call ≠ Call.delete,
            Halted table key present (before ++ item :: behind) call table := fun call hcall =>
          halted_of_rows hcall (by rw [List.length_append, length_consecutive, hlength])
            hascending hhead.symm hrows
        obtain ⟨moved, closed, hclosed, hstops⟩ :=
          ih hmove hnextLength hlower hnextTarget hnextLe
        refine ⟨true, closed, ⟨hclosed.rows, hmoved.trans hclosed.elsewhere⟩, ?_⟩
        rw [closeHoles, if_neg hstay]
        refine .bind (stops_moveItem (get?_of_rowsUnder hfront hrows) (hplace _ (by decide))
          (hplace _ (by decide)) ?_)
          (.bind (hstops.mono fun call left => Halted.trans hmoved) (.pure _))
        refine ⟨_, .twice before item behind rfl, ⟨_, ?_, hboth, hhead.symm,
          rowsUnder_copy hfront hrows hboth⟩, .insert (Key.itemStem_prefix_listItem key target) _ _⟩
        simp only [List.length_append, List.length_cons, hfront] at hlength ⊢
        omega

/-! ## Repair -/

/-- A frame that is read stops at its call only. -/
theorem stops_readExisting {place : Call → Table → Prop} {physical : Bytes} {frame : Frame}
    (hframe : table.HasFrame physical frame) (hplace : place .get table) :
    Stops place table (readExisting physical) (.ok frame) table := by
  obtain ⟨bytes, hget, hdecode⟩ := hframe
  have hcall : Stops place table (Engine.get physical) (.ok (some bytes)) table := by
    rw [← hget]
    exact .get hplace _
  have hlift : Stops place table (lift (Frame.decode bytes)) (.ok frame) table := by
    rw [hdecode]
    exact .pure frame
  exact .bind (.bind hcall (.bind hlift (.pure (some frame)))) (.pure frame)

/-- Whether metadata can be made of so many items from an index on: their number
is an index, and so is the index behind them. -/
def Recordable (first : Int64) (count : Nat) : Prop :=
  first.toInt + count < 2 ^ 63 ∧ count < 2 ^ 63

instance (first : Int64) (count : Nat) : Decidable (Recordable first count) :=
  inferInstanceAs (Decidable (_ ∧ _))

/-- A repaired list has an index behind its items, if metadata can be made of
them. -/
theorem Recordable.extensible (h : Recordable (present.headD 0) present.length) :
    Extensible present := by
  cases present with
  | nil => trivial
  | cons first rest => exact Int.lt_add_one_iff.mp h.1

/-- More items than there are numbers for leave no index behind them either. -/
theorem handleFrom_eq_throw_of_long {first : Int64} {count : Nat}
    (hroom : first.toInt + count ≤ 9223372036854775808) (hlong : 9223372036854775808 ≤ count) :
    ∃ cause, handleFrom first count = throw (.aborted cause) := by
  have hlow : -9223372036854775808 ≤ first.toInt := first.le_toInt
  -- The number wraps to what is missing to all indices.
  have hlength : (Int64.ofNat count).toInt = count - 18446744073709551616 := by
    have hwrap : (Int64.ofNat count).toInt = (count : Int).bmod 18446744073709551616 :=
      Int64.toInt_ofNat
    rw [Int.bmod] at hwrap
    split at hwrap <;> omega
  by_cases hnext : FitsInt64 (first.toInt + (Int64.ofNat count).toInt)
  · obtain ⟨next, hsum, hvalue⟩ := exists_sum_eq hnext
    have hback : ¬ FitsInt64 (next.toInt - 1) := by
      rintro ⟨hback, _⟩
      omega
    exact ⟨.difference, by rw [handleFrom, hsum, pure_bind, difference_of_not_fits hback]; rfl⟩
  · exact ⟨.sum, by rw [handleFrom, sum_of_not_fits hnext]; rfl⟩

/-- Where no metadata can be made of the items, making it breaks off. -/
theorem handleFrom_eq_throw_of_not_recordable {first : Int64} {rest : List Int64}
    (hascending : Ascending (first :: rest))
    (h : ¬ Recordable first (first :: rest).length) :
    ∃ cause, handleFrom first (first :: rest).length = throw (.aborted cause) := by
  by_cases hshort : (first :: rest).length < 9223372036854775808
  · refine ⟨.sum, handleFrom_eq_throw (fun hextensible => h ⟨?_, hshort⟩) hshort⟩
    exact Int.lt_add_one_iff.mpr hextensible
  · exact handleFrom_eq_throw_of_long (room_of_ascending hascending) (not_lt.mp hshort)

/-- How a repair ends once the items of a list are closed up: it writes their
metadata, or breaks off where none can be made. -/
inductive Concludes (closed : Table) (key : String) (handle : ListHandle)
    (expireAt : Option Instant) (present : List Int64) : Except StoreError Report → Table → Prop
  | recorded (report : Report) {contents : Bytes}
      (hroom : Recordable (present.headD 0) present.length)
      (hcontents : Frame.encode ⟨.list (settledHandle present), expireAt⟩ = .ok contents) :
      Concludes closed key handle expireAt present (.ok report)
        (if settledHandle present = handle then closed
          else closed.insert (Key.ofText key) contents)
  | broken (cause : Abort) (hroom : ¬ Recordable (present.headD 0) present.length) :
      Concludes closed key handle expireAt present (.error (.aborted cause)) closed

/-- The metadata is written last, over items that are closed up already. -/
theorem stops_record {handle : ListHandle} {contents : Bytes} (report : Report)
    (hclosed : Closed table key present items closed) (hlength : present.length = items.length)
    (hcontents : Frame.encode ⟨.list (settledHandle present), expireAt⟩ = .ok contents) :
    Stops (Halted table key present items) closed
      (do
        if settledHandle present ≠ handle then
          Store.write (Key.ofText key) (.list (settledHandle present)) expireAt
        return report : StoreM Report)
      (.ok report)
      (if settledHandle present = handle then closed
        else closed.insert (Key.ofText key) contents) := by
  have hset : Halted table key present items .set closed := by
    refine ⟨items, .once (by decide), ⟨settledIndices present, ?_, ?_, ?_, hclosed.rows⟩,
      hclosed.elsewhere⟩
    · rw [length_settledIndices, hlength]
    · apply ascending_of_sorted (by rw [length_settledIndices, hlength])
      rw [← hclosed.rows]
      exact Table.sorted_rowsUnder closed _
    · cases present <;> rfl
  by_cases hsame : settledHandle present = handle
  · rw [if_pos hsame, if_neg (not_not.mpr hsame)]
    exact .pure report
  · rw [if_neg hsame, if_pos hsame, Store.write, hcontents]
    exact .bind (.bind (.pure contents) (.set hset _ _)) (.pure report)

/-- A list is repaired, and a failing call stops that with its items scattered. -/
theorem stops_repair {handle : ListHandle}
    (hframe : table.HasFrame (Key.ofText key) ⟨.list handle, expireAt⟩)
    (hrows : table.rowsUnder (Key.itemStem key .list) = rows key present items)
    (hlength : present.length = items.length) (hascending : Ascending present) :
    ∃ outcome closed after, Closed table key present items closed ∧
      Concludes closed key handle expireAt present outcome after ∧
      Stops (Halted table key present items) table (repair key) outcome after := by
  have hplace : ∀ call ≠ Call.delete, Halted table key present items call table :=
    fun call hcall => halted_of_rows hcall hlength hascending rfl hrows
  have hindices : indices key (table.rowsUnder (Key.itemStem key .list)) = .ok present := by
    rw [hrows]
    exact indices_rows key hlength
  obtain ⟨contents, hcontents⟩ : ∃ contents,
      Frame.encode ⟨.list (settledHandle present), expireAt⟩ = .ok contents :=
    Frame.exists_encode rfl hframe.asStored_expireAt
  have hcollect : ∀ next : List Int64 → StoreM Report,
      ∀ {outcome : Except StoreError Report} {after : Table},
      Stops (Halted table key present items) table (next present) outcome after →
      Stops (Halted table key present items) table
        (Engine.scan (Key.itemStem key .list) >>= fun rows =>
          lift (indices key rows) >>= next) outcome after := by
    intro next outcome after hnext
    refine .bind (.scan (hplace _ (by decide)) _) (.bind ?_ hnext)
    rw [hindices]
    exact .pure present
  have hread := stops_readExisting hframe (hplace .get (by decide))
  cases present with
  | nil =>
      have hclosed : Closed table key [] items table := ⟨hrows, .refl _ table⟩
      refine ⟨.ok (settledReport handle [] false), table, _, hclosed,
        .recorded _ (by decide) hcontents, .bind hread (hcollect _ ?_)⟩
      exact stops_record _ hclosed hlength hcontents
  | cons first rest =>
      obtain ⟨hfirst, _⟩ := List.pairwise_cons.mp hascending
      have hsuccessor : rest ≠ [] → (first + 1).toInt = first.toInt + (0 + 1 : Nat) := by
        intro hne
        obtain ⟨other, hother⟩ := List.exists_mem_of_ne_nil rest hne
        have hlt := hfirst other hother
        have hhigh : other.toInt ≤ 9223372036854775807 := other.toInt_le
        rw [toInt_add_one (by omega)]
        omega
      have hbehind : ∀ index ∈ rest, first.toInt + (0 + 1 : Nat) ≤ index.toInt := by
        intro index hindex
        have hlt := hfirst index hindex
        omega
      obtain ⟨moved, closed, hclosed, hstops⟩ :=
        @stops_closeHoles table key (first :: rest) items first (first + 1) 0 rest hrows
          (by rw [← hlength, List.length_cons]; omega) hascending hsuccessor hbehind rfl hlength
      have hclose : Stops (Halted table key (first :: rest) items) table
          (closeHoles key first (first :: rest)) (.ok (false || moved)) closed := by
        rw [closeHoles, if_pos rfl]
        exact .bind (.pure false) (.bind hstops (.pure _))
      by_cases hroom : Recordable first (first :: rest).length
      · refine ⟨.ok (settledReport handle (first :: rest) (false || moved)), closed, _, hclosed,
          .recorded _ hroom hcontents, .bind hread (hcollect _ (.bind hclose ?_))⟩
        rw [handleFrom_eq (Recordable.extensible hroom) hroom.2]
        exact stops_record _ hclosed hlength hcontents
      · obtain ⟨cause, hbroken⟩ := handleFrom_eq_throw_of_not_recordable hascending hroom
        refine ⟨_, closed, _, hclosed, .broken cause hroom,
          .bind hread (hcollect _ (.bind hclose ?_))⟩
        rw [hbroken]
        exact .throw _

/-! ## The next repair -/

/-- What a repair ends on: the items lie at consecutive indices from the first
one on, with the metadata of that, and all else is as it was.  Where no metadata
can be made of them, the repair breaks off without it. -/
structure Numbered (table : Table) (key : String) (expireAt : Option Instant) (first : Int64)
    (items : List Bytes) (outcome : Except StoreError Report) (after : Table) : Prop where
  rows : after.rowsUnder (Key.itemStem key .list) =
    Deque.rows key (consecutive first items.length) items
  metadata : if Recordable first items.length then
      (∃ report, outcome = .ok report) ∧
        after.HasFrame (Key.ofText key) ⟨.list (consecutiveHandle first items.length), expireAt⟩
    else (∃ cause, outcome = .error (.aborted cause)) ∧
      after.get? (Key.ofText key) = table.get? (Key.ofText key)
  elsewhere : ∀ physical ≠ Key.ofText key, ¬ Key.itemStem key .list <+: physical →
    after.get? physical = table.get? physical

theorem settledIndices_eq (present : List Int64) :
    settledIndices present = consecutive (present.headD 0) present.length := by
  cases present <;> rfl

theorem settledHandle_eq (present : List Int64) :
    settledHandle present = consecutiveHandle (present.headD 0) present.length := by
  cases present with
  | nil => decide
  | cons first rest => rfl

/-- Indices that end at the last one there is have no holes. -/
theorem settledIndices_of_full {first : Int64} {rest : List Int64}
    (hascending : Ascending (first :: rest))
    (hfull : 9223372036854775808 ≤ first.toInt + (first :: rest).length) :
    settledIndices (first :: rest) = first :: rest := by
  induction rest generalizing first with
  | nil => rfl
  | cons second rest ih =>
      obtain ⟨hfirst, hrest⟩ := List.pairwise_cons.mp hascending
      have hlt := hfirst second List.mem_cons_self
      have hroom := room_of_ascending hrest
      have hhigh : second.toInt ≤ 9223372036854775807 := second.toInt_le
      have hnext := @toInt_add_one first (by omega)
      rw [List.length_cons, List.length_cons] at hfull
      have hsecond : first + 1 = second := Int64.toInt_inj.mp (by omega)
      have hbehind := ih hrest (by rw [List.length_cons]; omega)
      rw [settledIndices, consecutive, hsecond, List.length_cons]
      exact congrArg (first :: ·) hbehind

/-- Closed up and concluded, a list is numbered. -/
theorem Closed.numbered {handle : ListHandle} {outcome : Except StoreError Report} {after : Table}
    (h : Closed table key present items closed)
    (hconcludes : Concludes closed key handle expireAt present outcome after)
    (hframe : table.HasFrame (Key.ofText key) ⟨.list handle, expireAt⟩)
    (hlength : present.length = items.length) (hascending : Ascending present) :
    Numbered table key expireAt (present.headD 0) items outcome after := by
  have houtside := Key.not_itemStem_prefix_ofText key .list
  have hkept : ∀ physical ≠ Key.ofText key, after.get? physical = closed.get? physical := by
    intro physical hphysical
    cases hconcludes with
    | broken cause hroom => rfl
    | recorded report hroom hcontents =>
        split
        · rfl
        · exact Table.get?_insert_of_ne closed _ hphysical.symm
  constructor
  · rw [← hlength, ← settledIndices_eq, ← h.rows]
    refine Table.rowsUnder_congr fun physical hstem => hkept physical ?_
    rintro rfl
    exact houtside hstem
  · rw [← hlength, ← settledHandle_eq]
    cases hconcludes with
    | broken cause hroom =>
        rw [if_neg hroom]
        exact ⟨⟨cause, rfl⟩, h.elsewhere _ houtside⟩
    | recorded report hroom hcontents =>
        rw [if_pos hroom]
        refine ⟨⟨report, rfl⟩, ?_⟩
        split
        · rename_i hsame
          rw [hsame]
          exact hframe.congr (h.elsewhere _ houtside)
        · have hdescribes := describes_settledHandle hascending hroom.2
          exact .insert closed _ hcontents hdescribes.storable hframe.asStored_expireAt
  · intro physical hphysical hstem
    rw [hkept physical hphysical, h.elsewhere physical hstem]

/-- Items that are closed up at the same indices are concluded alike. -/
theorem Concludes.unique {handle : ListHandle} {indices : List Int64}
    {outcome outcome' : Except StoreError Report} {after after' : Table}
    (h : Concludes closed key handle expireAt present outcome after)
    (hother : Concludes closed key handle expireAt indices outcome' after')
    (hhead : indices.head? = present.head?) (hlength : indices.length = present.length) :
    after' = after := by
  have hhandle := settledHandle_congr (settledIndices_congr hhead hlength)
  have hfirst : indices.headD 0 = present.headD 0 := by
    rw [List.headD_eq_head?_getD, hhead, ← List.headD_eq_head?_getD]
  cases h with
  | broken cause hroom =>
      cases hother with
      | broken cause' hroom' => rfl
      | recorded report hroom' hcontents =>
          rw [hfirst, hlength] at hroom'
          exact absurd hroom' hroom
  | recorded report hroom hcontents =>
      cases hother with
      | broken cause hroom' =>
          rw [hfirst, hlength] at hroom'
          exact absurd hroom hroom'
      | recorded report' hroom' hcontents' =>
          rw [hhandle, hcontents] at hcontents'
          cases hcontents'
          rw [hhandle]

/-- A scattered list is repaired to the numbers of its items. -/
theorem Scattered.run_repair {handle : ListHandle} (h : Scattered table key present items left)
    (hframe : table.HasFrame (Key.ofText key) ⟨.list handle, expireAt⟩) :
    ∃ indices again closed repaired, indices.length = items.length ∧ Ascending indices ∧
      indices.head? = present.head? ∧ Closed table key indices items closed ∧
      Concludes closed key handle expireAt indices again repaired ∧
      (repair key).run (ofTable left) = (again, ofTable repaired) := by
  obtain ⟨indices, hlength, hascending, hhead, hrows⟩ := h.rows
  have hleft := hframe.congr (h.elsewhere _ (Key.not_itemStem_prefix_ofText key .list))
  obtain ⟨again, closed, repaired, hclosed, hconcludes, hstops⟩ :=
    stops_repair hleft hrows hlength hascending
  exact ⟨indices, again, closed, repaired, hlength, hascending, hhead,
    ⟨hclosed.rows, h.elsewhere.trans hclosed.elsewhere⟩, hconcludes, hstops.run⟩

/-- A repair that a failing call stops anywhere but at the removal of an item is
completed by the next one: both end on the same rows.  If the removal fails, the
next repair keeps that item twice and all others once.  A list with holes has an
index left behind its items, so that its repair does not break off. -/
theorem repair_resumes {table : Table} {key : String} {handle : ListHandle}
    {expireAt : Option Instant} {present : List Int64} {plan : FaultPlan}
    (hframe : table.HasFrame (Key.ofText key) ⟨.list handle, expireAt⟩)
    (hpresent : indices key (table.rowsUnder (Key.itemStem key .list)) = .ok present)
    (hinert : plan.Inert) :
    let first := present.headD 0
    let items := (table.rowsUnder (Key.itemStem key .list)).map (·.2)
    let broken := (repair key).run ⟨table, some plan⟩
    ∃ outcome finished, (repair key).run (.ofTable table) = (outcome, .ofTable finished) ∧
      Numbered table key expireAt first items outcome finished ∧
      (settledIndices present ≠ present → items.length < 2 ^ 63 →
        Recordable first items.length) ∧
      ((∃ made, broken = (outcome, ⟨finished, some { plan with made }⟩)) ∨
        ∃ call left again repaired, StoppedAt plan call left broken ∧
          (repair key).run (.ofTable left) = (again, .ofTable repaired) ∧
          (call ≠ .delete → repaired = finished ∧
            Numbered table key expireAt first items again repaired) ∧
          (call = .delete → ∃ front item back, items = front ++ item :: back ∧
            Numbered table key expireAt first (front ++ item :: item :: back) again
              repaired)) := by
  intro first items broken
  have hstem : ∀ row ∈ table.rowsUnder (Key.itemStem key .list),
      Key.itemStem key .list <+: row.1 :=
    fun row hrow => ((Table.mem_rowsUnder table _ row).mp hrow).2
  obtain ⟨hlength, hrows⟩ := rows_of_indices hstem hpresent
  have hascending : Ascending present := by
    apply ascending_of_sorted hlength
    rw [hrows]
    exact Table.sorted_rowsUnder table _
  obtain ⟨outcome, closed, finished, hclosed, hconcludes, hstops⟩ :=
    stops_repair hframe hrows.symm hlength hascending
  refine ⟨outcome, finished, hstops.run,
    hclosed.numbered hconcludes hframe hlength hascending, ?_, ?_⟩
  · intro hholes hshort
    refine ⟨?_, hshort⟩
    by_contra hfull
    cases present with
    | nil => exact hholes rfl
    | cons first rest =>
        apply hholes
        apply settledIndices_of_full hascending
        rw [hlength]
        exact not_lt.mp hfull
  · rcases hstops.stopped plan hinert with hdone | ⟨call, left, hstopped, shown, hshows, hleft⟩
    · exact Or.inl hdone
    · obtain ⟨indices, again, closed', repaired, hlength', hascending', hhead, hclosed',
        hconcludes', hagain⟩ := hleft.run_repair hframe
      have hfirst : indices.headD 0 = first := by
        rw [List.headD_eq_head?_getD, hhead, ← List.headD_eq_head?_getD]
      have hnumbered := hclosed'.numbered hconcludes' hframe hlength' hascending'
      rw [hfirst] at hnumbered
      refine Or.inr ⟨call, left, again, repaired, hstopped, hagain, ?_, ?_⟩
      · intro hcall
        cases hshows with
        | twice front item back h => exact absurd rfl hcall
        | once h =>
            have hcount := hlength'.trans hlength.symm
            have hsame : Closed table key present items closed' :=
              ⟨by rw [← settledIndices_congr hhead hcount]; exact hclosed'.rows,
                hclosed'.elsewhere⟩
            rw [hsame.unique hclosed] at hconcludes'
            exact ⟨hconcludes.unique hconcludes' hhead hcount, hnumbered⟩
      · intro hcall
        cases hshows with
        | once h => exact absurd hcall h
        | twice front item back h => exact ⟨front, item, back, h, hnumbered⟩

/-- Three items with a hole: the second copy fails, and the next repair moves the
last item. -/
theorem repair_resumes_copying :
    let metadata : Bytes := 0x10 :: [255, 255, 255, 255, 255, 255, 255, 255, 2, 0, 0, 0, 0, 0, 0, 0,
      4, 0, 0, 0, 0, 0, 0, 0, 0, 0, 0, 0, 0, 0, 0, 0]
    let table := (((Table.empty.insert (Key.ofText "key") metadata).insert
      (Key.listItem "key" (-1)) [1]).insert (Key.listItem "key" 1) [2]).insert
      (Key.listItem "key" 2) [3]
    let plan : FaultPlan := .after [.set] 1
    let broken := (repair "key").run ⟨table, some plan⟩
    table.HasFrame (Key.ofText "key") ⟨.list ⟨-1, 2, 4⟩, none⟩ ∧
      indices "key" (table.rowsUnder (Key.itemStem "key" .list)) = .ok [-1, 1, 2] ∧
      plan.Inert ∧ broken.2.table.get? (Key.listItem "key" 0) = some [2] ∧
      broken.2.table.get? (Key.listItem "key" 2) = some [3] ∧
      settledIndices [-1, 1, 2] ≠ [-1, 1, 2] ∧ Recordable (-1) 3 ∧
      ∃ outcome finished, (repair "key").run (.ofTable table) = (outcome, .ofTable finished) ∧
        Numbered table "key" none (-1) [[1], [2], [3]] outcome finished ∧
        ((∃ made, broken = (outcome, ⟨finished, some { plan with made }⟩)) ∨
          ∃ call left again repaired, StoppedAt plan call left broken ∧
            (repair "key").run (.ofTable left) = (again, .ofTable repaired) ∧
            (call ≠ .delete → repaired = finished ∧
              Numbered table "key" none (-1) [[1], [2], [3]] again repaired) ∧
            (call = .delete → ∃ front item back, [[1], [2], [3]] = front ++ item :: back ∧
              Numbered table "key" none (-1) (front ++ item :: item :: back) again
                repaired)) := by
  intro metadata table plan broken
  have hframe : table.HasFrame (Key.ofText "key") ⟨.list ⟨-1, 2, 4⟩, none⟩ :=
    ⟨metadata, rfl, by decide +kernel⟩
  have hpresent : indices "key" (table.rowsUnder (Key.itemStem "key" .list)) = .ok [-1, 1, 2] := by
    decide +kernel
  have hinert : plan.Inert := FaultPlan.inert_after [.set] 1
  have hholes : settledIndices [-1, 1, 2] ≠ [-1, 1, 2] := by decide
  obtain ⟨outcome, finished, hrun, hnumbered, hroom, hbroken⟩ :=
    repair_resumes hframe hpresent hinert
  exact ⟨hframe, hpresent, hinert, by decide +kernel, by decide +kernel, hholes,
    hroom hholes (by decide +kernel), outcome, finished, hrun, hnumbered, hbroken⟩

/-- The same list, where the removal behind the first copy fails: the next repair
succeeds and keeps the item twice. -/
theorem repair_resumes_twice :
    let metadata : Bytes := 0x10 :: [255, 255, 255, 255, 255, 255, 255, 255, 2, 0, 0, 0, 0, 0, 0, 0,
      4, 0, 0, 0, 0, 0, 0, 0, 0, 0, 0, 0, 0, 0, 0, 0]
    let table := (((Table.empty.insert (Key.ofText "key") metadata).insert
      (Key.listItem "key" (-1)) [1]).insert (Key.listItem "key" 1) [2]).insert
      (Key.listItem "key" 2) [3]
    let plan : FaultPlan := .after [.delete] 0
    let finished := ((repair "key").run (.ofTable table)).2.table
    let left := ((repair "key").run ⟨table, some plan⟩).2.table
    let repaired := ((repair "key").run (.ofTable left)).2.table
    plan.Inert ∧ ((repair "key").run (.ofTable left)).1.toOption = some ⟨.list, 4, 4, false⟩ ∧
      (finished.rowsUnder (Key.itemStem "key" .list)).map (·.2) = [[1], [2], [3]] ∧
      (repaired.rowsUnder (Key.itemStem "key" .list)).map (·.2) = [[1], [2], [2], [3]] := by
  intro metadata table plan finished left repaired
  exact ⟨FaultPlan.inert_after [.delete] 0, by decide +kernel, by decide +kernel,
    by decide +kernel⟩

end StructuredStore.Repair
