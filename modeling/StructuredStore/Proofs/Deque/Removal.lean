import StructuredStore.Proofs.Deque.Update

/-!
# Removing parts of lists

Lists lose their items index by index: those outside the part that a trim
keeps, or all of them when the list is removed or drained.

Main results:

- `ends_trim`: exactly the part between two positions is kept.
- `ends_purge`, `ends_takeAll`: nothing is left, and the items are answered.
-/

namespace StructuredStore.Deque

open Engine Store

variable {table : Table} {key : String} {handle : ListHandle} {expireAt : Option Instant}
  {items : List Bytes}

/-! ## Removing intervals -/

/-- Indices are removed one after the other. -/
theorem run_removeIndices (table : Table) (key : String) {first : Int64} {count : Nat}
    (hroom : first.toInt + count ≤ 9223372036854775808) :
    ∃ after, (removeIndices key first count).run (ofTable table) = (.ok (), ofTable after) ∧
      Without table key first.toInt (first.toInt + count) after := by
  induction count generalizing first table with
  | zero => exact ⟨table, rfl, .refl table key (by simp)⟩
  | succ count ih =>
      have hfirst := Without.erase table key first
      have hrun := run_delete table (Key.listItem key first)
      cases count with
      | zero =>
          refine ⟨_, ?_, by simpa using hfirst⟩
          rw [removeIndices, forIndices, run_bind_ok hrun]
          rfl
      | succ count =>
          push_cast at hroom
          have hnext := @toInt_add_one first (by omega)
          rcases @ih (table.erase (Key.listItem key first)) (first + 1)
            (by push_cast; omega) with ⟨after, hrest, hwithout⟩
          refine ⟨after, ?_, ?_⟩
          · rw [removeIndices, forIndices, run_bind_ok hrun]
            exact hrest
          · have hbound : first.toInt + 1 + ((count + 1 : Nat) : Int)
                = first.toInt + ((count + 1 + 1 : Nat) : Int) := by
              push_cast
              omega
            rw [hnext, hbound] at hwithout
            exact hfirst.trans hwithout (by omega) (by push_cast; omega)

/-- Once all its items are removed, a list without its metadata leaves nothing. -/
theorem Stored.vacant_erase {after : Table} (h : Stored table key handle expireAt items)
    (hwithout : Without table key handle.head.toInt (handle.head.toInt + items.length) after) :
    (after.erase (Key.ofText key)).Vacant key := by
  rw [Table.vacant_iff]
  refine ⟨Table.get?_erase_self after _, fun marker => ?_⟩
  rw [Table.countUnder_erase_outside after (Key.not_itemStem_prefix_ofText key marker)]
  by_cases hmarker : marker = .list
  · rw [hmarker]
    refine (Spread.nil_iff 0).mp (hwithout.spread h.spread fun index => ?_)
    rw [slot_nil]
    split
    · rfl
    · symm
      by_contra hsome
      rcases (slot_ne_none_iff items _).mp hsome with ⟨hlow, hhigh⟩
      omega
  · rw [hwithout.countUnder_eq hmarker, h.bare marker hmarker]

/-- Removing what the metadata describes leaves nothing. -/
theorem ends_purge (h : Stored table key handle expireAt items) :
    Ends table (purge key (.list handle)) fun outcome after =>
      outcome = .ok () ∧ after.Vacant key := by
  have hspan := h.describes.spanLength_eq
  have hzero := h.describes.length_eq_zero_iff
  by_cases hlength : handle.length = 0
  · have hnone : items.length = 0 := hzero.mp hlength
    have hwithout : Without table key handle.head.toInt (handle.head.toInt + items.length) table :=
      .refl table key (by omega)
    refine .of_run ?_ ⟨rfl, h.vacant_erase hwithout⟩
    rw [purge]
    simp only [ne_eq, hlength, not_true_eq_false, if_false]
    exact run_delete table _
  · rcases run_removeIndices table key h.describes.room with ⟨after, hrun, hwithout⟩
    refine .of_run ?_ ⟨rfl, h.vacant_erase hwithout⟩
    rw [purge]
    simp only [ne_eq, hlength, not_false_eq_true, if_true]
    rw [hspan, run_bind_ok hrun]
    exact run_delete after _

/-! ## Keeping a part -/

/-- Metadata that reaches no further than other metadata, or is empty. -/
def Within (inner outer : ListHandle) : Prop :=
  inner = .empty ∨ (outer.head.toInt ≤ inner.head.toInt ∧ inner.tail.toInt ≤ outer.tail.toInt)

theorem Within.near {inner outer : ListHandle} {steps : Nat} (h : Within inner outer)
    (hnear : Near outer steps) : Near inner steps := by
  rcases hnear with ⟨hhead, htail⟩
  rcases h with rfl | ⟨hfirst, hlast⟩
  · exact near_empty steps
  · constructor <;> omega

/-- The metadata of a part of a list. -/
theorem describes_part (h : Describes handle items.length) {first last : Int} {head tail : Int64}
    (hlow : 0 ≤ first) (hle : first ≤ last) (hhigh : last < items.length)
    (hhead : head.toInt = handle.head.toInt + first)
    (htail : tail.toInt = handle.head.toInt + last) :
    Describes ⟨head, tail, Int64.ofInt (last - first + 1)⟩
      (part items (some (first, last))).length := by
  have hlength := h.length
  have hshort : handle.length.toInt ≤ 9223372036854775807 := handle.length.toInt_le
  have hcount : (part items (some (first, last))).length = (last - first + 1).toNat := by
    rw [part, List.length_take, List.length_drop]
    omega
  refine ⟨?_, ?_, ?_⟩
  · simp only
    rw [hcount, Int64.toInt_ofInt_of_le (by omega) (by omega)]
    omega
  · simp only
    rw [hhead, htail, hcount]
    omega
  · rw [hcount]
    omega

/-- The items that are left when those in front of a part and behind it were
removed. -/
theorem Spread.part {front after : Table} {first last head : Int}
    (h : Spread table key head items) (hlow : 0 ≤ first) (hle : first ≤ last)
    (hhigh : last < items.length)
    (hfront : Without table key head (head + first) front)
    (hback : Without front key (head + last + 1) (head + items.length) after) :
    Spread after key (head + first) (Deque.part items (some (first, last))) := by
  have hmiddle : Spread front key (head + first) (items.drop first.toNat) := by
    refine hfront.spread h fun index => ?_
    have hwhole : (items.drop first.toNat).take (items.drop first.toNat).length
        = items.drop first.toNat := List.take_length
    have hslot := slot_take_drop items first.toNat (items.drop first.toNat).length
      (index.toInt - (head + first))
    have hoffset : index.toInt - (head + first) + (first.toNat : Int) = index.toInt - head := by
      omega
    rw [hwhole, hoffset, List.length_drop] at hslot
    rw [hslot]
    by_cases hin : head ≤ index.toInt ∧ index.toInt < head + first
    · rw [if_pos hin, if_neg (by omega)]
    · rw [if_neg hin]
      split
      · rfl
      · symm
        by_contra hsome
        rcases (slot_ne_none_iff items _).mp hsome with ⟨hfrom, hto⟩
        omega
  refine hback.spread hmiddle fun index => ?_
  have hslot := slot_take_drop (items.drop first.toNat) 0 (last - first + 1).toNat
    (index.toInt - (head + first))
  rw [List.drop_zero] at hslot
  rw [Deque.part, hslot]
  simp only [Nat.cast_zero, Int.add_zero]
  by_cases hin : head + last + 1 ≤ index.toInt ∧ index.toInt < head + items.length
  · rw [if_pos hin, if_neg (by omega)]
  · rw [if_neg hin]
    split
    · rfl
    · symm
      by_contra hsome
      rcases (slot_ne_none_iff _ _).mp hsome with ⟨hfrom, hto⟩
      rw [List.length_drop] at hto
      omega

/-- A trim keeps exactly the part of the list between its positions.  The index
behind the tail has to exist, as the removal behind the part starts there. -/
theorem ends_trim (h : Stored table key handle expireAt items)
    (htop : handle.tail.toInt < 9223372036854775807) (start stop : Int64) :
    Ends table (trim key start stop) fun outcome after => outcome = .ok () ∧
      ∃ next, Within next handle ∧ Stored after key next expireAt
        (part items (span? start.toInt stop.toInt items.length)) := by
  have hlength := h.describes.length
  have hspanLength := h.describes.spanLength_eq
  have hexpireAt := h.frame.asStored_expireAt
  refine .bind_run (run_readHandle h.frame) ?_
  by_cases hzero : handle.length = 0
  · have hnil : items = [] :=
      List.length_eq_zero_iff.mp (h.describes.length_eq_zero_iff.mp hzero)
    simp only [if_pos hzero]
    refine .pure ⟨rfl, handle, Or.inr ⟨le_rfl, le_rfl⟩, ?_⟩
    have hpart : part items (span? start.toInt stop.toInt items.length) = items := by
      rw [hnil]
      simp [span?, part]
    rwa [hpart]
  · simp only [if_neg hzero, ← hlength]
    cases hspan : span? start.toInt stop.toInt handle.length.toInt with
    | none =>
        rcases run_removeIndices table key h.describes.room with ⟨after, hrun, hwithout⟩
        rcases h.exists_encode .empty with ⟨contents, hcontents⟩
        have hvacant := h.vacant_erase hwithout
        refine .bind_run (by rw [hspanLength]; exact hrun)
          (.of_run (run_write hcontents) ⟨rfl, .empty, Or.inl rfl, ?_⟩)
        have hnone : Spread after key ListHandle.empty.head.toInt [] := by
          rw [Spread.nil_iff, ← Table.countUnder_erase_outside after
            (Key.not_itemStem_prefix_ofText key .list)]
          exact ((Table.vacant_iff _ key).mp hvacant).2 .list
        refine .of_insert_ofText hcontents hexpireAt describes_empty hnone fun marker hmarker => ?_
        rw [hwithout.countUnder_eq hmarker, h.bare marker hmarker]
    | some span =>
        rcases span with ⟨first, last⟩
        rcases span?_eq_some hspan with ⟨hlow, hle, hhigh⟩
        have hhigh : last < items.length := by omega
        have hend := h.describes.tail
        have hroom := h.describes.room
        obtain ⟨head, hheadSum, hhead⟩ := exists_sum_eq (h.describes.fits hlow (by omega))
        obtain ⟨tail, htailSum, htail⟩ :=
          exists_sum_eq (h.describes.fits (by omega : 0 ≤ last) hhigh)
        have hbelow : -9223372036854775808 ≤ tail.toInt := tail.le_toInt
        obtain ⟨next, hnextSum, hnext⟩ :=
          exists_sum_eq (a := tail) (i := 1) ⟨by omega, by omega⟩
        have hdescribes := describes_part h.describes hlow hle hhigh hhead htail
        rcases h.exists_encode ⟨head, tail, Int64.ofInt (last - first + 1)⟩
          with ⟨contents, hcontents⟩
        have hskipped : (head.toInt - handle.head.toInt).toNat = first.toNat := by omega
        rcases @run_removeIndices table key handle.head first.toNat (by omega)
          with ⟨front, hfront, hwithoutFront⟩
        have hcount : spanLength next handle.tail = items.length - (last.toNat + 1) := by
          rw [spanLength]
          omega
        rcases @run_removeIndices front key next (items.length - (last.toNat + 1)) (by omega)
          with ⟨after, hback, hwithoutBack⟩
        have hbackStart : next.toInt = handle.head.toInt + last + 1 := by omega
        have hbackEnd : handle.head.toInt + last + 1
            + ((items.length - (last.toNat + 1) : Nat) : Int)
            = handle.head.toInt + items.length := by
          omega
        rw [hbackStart, hbackEnd] at hwithoutBack
        have hfrontEnd : handle.head.toInt + (first.toNat : Int) = handle.head.toInt + first := by
          omega
        rw [hfrontEnd] at hwithoutFront
        have hspread := h.spread.part hlow hle hhigh hwithoutFront hwithoutBack
        rw [← hhead] at hspread
        have hwithin : Within ⟨head, tail, Int64.ofInt (last - first + 1)⟩ handle := by
          right
          simp only
          omega
        simp only [hheadSum, htailSum, hnextSum, pure_bind, hskipped, hcount]
        refine .bind_run hfront (.bind_run hback
          (.of_run (run_write hcontents) ⟨rfl, _, hwithin, ?_⟩))
        refine .of_insert_ofText hcontents hexpireAt hdescribes hspread fun marker hmarker => ?_
        rw [hwithoutBack.countUnder_eq hmarker, hwithoutFront.countUnder_eq hmarker,
          h.bare marker hmarker]

/-! ## Draining -/

/-- Other items stay where they lie when one is removed. -/
theorem Lies.erase {first : Int64} {item : Bytes}
    (h : Lies table key first.toInt (item :: items)) :
    Lies (table.erase (Key.listItem key first)) key (first.toInt + 1) items := by
  intro offset other index hitem hindex
  rw [Table.get?_erase_of_ne]
  · exact h.tail offset other index hitem hindex
  · rw [ne_eq, Key.listItem_inj]
    rintro rfl
    omega

/-- Items at consecutive indices are read and removed in order. -/
theorem run_drain {first : Int64} {values : List Value} (h : Lies table key first.toInt items)
    (hroom : first.toInt + items.length ≤ 9223372036854775808)
    (hvalues : Holding items values) :
    ∃ after, (drain key first items.length).run (ofTable table) = (.ok values, ofTable after) ∧
      Without table key first.toInt (first.toInt + items.length) after := by
  induction items generalizing first values table with
  | nil =>
      have hnil : values = [] := by simpa using hvalues.length_eq.symm
      rw [hnil]
      exact ⟨table, rfl, .refl table key (by simp)⟩
  | cons item items ih =>
      cases values with
      | nil => simpa using hvalues.length_eq
      | cons value values =>
          rcases Holding.cons_iff.mp hvalues with ⟨hdecode, hrest⟩
          rw [List.length_cons] at hroom
          have hitem : table.get? (Key.listItem key first) = some item :=
            h 0 item first rfl (by simp)
          have hread := run_readItem hitem
          rw [valueOf_of_decode hdecode] at hread
          have hdelete := run_delete table (Key.listItem key first)
          have hfirst := Without.erase table key first
          have hnext : ∃ after, (drain key (first + 1) items.length).run
                (ofTable (table.erase (Key.listItem key first))) = (.ok values, ofTable after) ∧
              Without (table.erase (Key.listItem key first)) key (first.toInt + 1)
                (first.toInt + 1 + items.length) after := by
            cases items with
            | nil =>
                have hnil : values = [] := by simpa using hrest.length_eq.symm
                rw [hnil]
                exact ⟨_, rfl, .refl _ key (by simp)⟩
            | cons other items =>
                rw [List.length_cons] at hroom
                have hstep := @toInt_add_one first (by omega)
                have hlies := h.erase
                rw [← hstep] at hlies ⊢
                exact ih hlies (by rw [hstep, List.length_cons]; omega) hrest
          rcases hnext with ⟨after, hrun, hwithout⟩
          refine ⟨after, ?_, ?_⟩
          · rw [List.length_cons, drain, run_bind_ok hread, run_bind_ok hdelete, run_bind_ok hrun]
            rfl
          · have hend : first.toInt + ((item :: items).length : Int)
                = first.toInt + 1 + items.length := by
              rw [List.length_cons]
              push_cast
              omega
            rw [hend]
            exact hfirst.trans hwithout (by omega) (by omega)

/-- Nothing is taken where nothing is. -/
theorem run_takeAll_vacant (h : table.Vacant key) :
    (takeAll key).run (ofTable table) = (.ok [], ofTable table) := by
  rw [takeAll, run_bind_ok (Engine.run_get table _), h _ (.self key)]
  rfl

/-- All items are taken, and nothing is left. -/
theorem ends_takeAll {values : List Value} (h : Stored table key handle expireAt items)
    (hvalues : Holding items values) :
    Ends table (takeAll key) fun outcome after => outcome = .ok values ∧ after.Vacant key := by
  rcases h.frame with ⟨bytes, hget, hdecode⟩
  have hread : (lift (Frame.decodeAs .list bytes)).run (ofTable table)
      = (.ok ⟨.list handle, expireAt⟩, ofTable table) :=
    run_lift_ok (Frame.decodeAs_eq_ok_iff.mpr ⟨hdecode, rfl⟩) _
  rcases run_drain h.spread.lies h.describes.room hvalues with ⟨after, hrun, hwithout⟩
  have hbuffer : (reserve key handle.length.toInt.toNat).run (ofTable table)
      = (.ok (), ofTable table) := by
    apply run_reserve_of_le
    rw [h.describes.length]
    exact h.countUnder_eq.ge
  refine .bind_run (Engine.run_get table _) ?_
  rw [hget]
  refine .bind_run hread (.bind_run hbuffer ?_)
  by_cases hlength : handle.length = 0
  · have hnone := h.describes.length_eq_zero_iff.mp hlength
    have hnil : values = [] :=
      List.length_eq_zero_iff.mp (by rw [← hvalues.length_eq, hnone])
    have hwithout : Without table key handle.head.toInt (handle.head.toInt + items.length) table :=
      .refl table key (by omega)
    simp only [if_pos hlength, hnil]
    exact .bind_run (run_pure [] _) (.bind_run (run_delete table _)
      (.pure ⟨rfl, h.vacant_erase hwithout⟩))
  · simp only [if_neg hlength]
    rw [h.describes.spanLength_eq]
    exact .bind_run hrun (.bind_run (run_delete after _) (.pure ⟨rfl, h.vacant_erase hwithout⟩))

end StructuredStore.Deque
