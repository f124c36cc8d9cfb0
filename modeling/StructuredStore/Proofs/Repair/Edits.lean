import StructuredStore.Proofs.Deque.Edits
import StructuredStore.Proofs.Repair.Restoration

/-!
# Edits of a repair

A repair copies items of a list to free indices between other items, removes
them at the old ones, and writes the metadata last.  While it is on its way all
items lie between the first one and the last one, so the old metadata promises
no less than before.

Main results:

- `revises_closeHoles`: at the end the items lie at consecutive indices only.
- `revises_repair`: a repair makes edits only.
-/

namespace StructuredStore.Repair

open Engine Store Deque

variable {permit : Permit} {key : String} {table : Table} {handle : ListHandle}
  {expireAt : Option Instant}

/-! ## Structures that count their items -/

theorem revises_recount {marker : Key.Marker} {metadata : UInt64 → Value} {before : UInt64}
    (hframe : table.HasFrame (Key.ofText key) ⟨metadata before, expireAt⟩)
    (hmetadata : ∀ count, (metadata count).marker? = some marker) (hmarker : marker ≠ .list) :
    Amends permit key table (recount key marker before metadata expireAt) := by
  refine .read (.visitUnder table _ _ _) fun after _ => .ite (fun _ => ?_) fun _ => .pure trivial
  exact .bind (Store.revises_recount hframe hmetadata hmarker _) fun _ _ _ => .pure trivial

/-! ## Closing holes -/

/-- An item is moved down to an index that is not in front of another item. -/
theorem revises_moveItem {low source target : Int64}
    (hframe : table.HasFrame (Key.ofText key) ⟨.list handle, expireAt⟩)
    (hlow : table.get? (Key.listItem key low) ≠ none) (hle : low.toInt ≤ target.toInt)
    (hlt : target.toInt < source.toInt) :
    Revises permit key table (moveItem key source target) fun _ after =>
      after.HasFrame (Key.ofText key) ⟨.list handle, expireAt⟩ ∧
        after.get? (Key.listItem key low) ≠ none ∧
        ∀ index, after.get? (Key.listItem key index) ≠ none →
          index = target ∨ (index ≠ source ∧ table.get? (Key.listItem key index) ≠ none) := by
  refine .read (.get table _) fun found hfound => ?_
  cases found with
  | none =>
      refine .pure ⟨hframe, hlow, fun index hget => Or.inr ⟨?_, hget⟩⟩
      rintro rfl
      exact hget hfound.symm
  | some bytes =>
      refine .bind (@Revises.set permit key table (Key.listItem key target) bytes
        (fun _ between => between = table.insert (Key.listItem key target) bytes)
        (.copyItem hframe hlow hle hfound.symm hlt.le) rfl) ?_
      rintro _ _ rfl
      refine .delete_bind (.dropItem (Key.itemStem_prefix_listItem key source)) (.pure ?_)
      refine ⟨?_, ?_, fun index hget => ?_⟩
      · apply hframe.congr
        rw [Table.get?_erase_of_ne _ (listItem_ne_ofText key source),
          Table.get?_insert_of_ne _ _ (listItem_ne_ofText key target)]
      · have hne : source ≠ low := by
          rintro rfl
          omega
        rw [Table.get?_erase_of_ne _ (by simpa using hne), Table.get?_insert]
        split
        · exact Option.some_ne_none bytes
        · exact hlow
      · by_cases htarget : index = target
        · exact Or.inl htarget
        · refine Or.inr ⟨?_, ?_⟩
          · rintro rfl
            exact hget (Table.get?_erase_self _ _)
          · intro hnone
            apply hget
            rw [Table.get?_erase]
            split
            · rfl
            · rw [Table.get?_insert_of_ne _ _ (by simpa using Ne.symm htarget), hnone]

/-- Items at increasing indices, of which those in front are consecutive, lie at
consecutive indices in the end. -/
theorem revises_closeHoles {first target : Int64} {done : Nat} {rest : List Int64}
    (hframe : table.HasFrame (Key.ofText key) ⟨.list handle, expireAt⟩)
    (hfirst : table.get? (Key.listItem key first) ≠ none)
    (honly : ∀ index, table.get? (Key.listItem key index) ≠ none →
      index ∈ consecutive first done ++ rest)
    (hascending : Ascending (consecutive first done ++ rest))
    (htarget : rest ≠ [] → target.toInt = first.toInt + done)
    (hle : ∀ index ∈ rest, first.toInt + done ≤ index.toInt) :
    Revises permit key table (closeHoles key target rest) fun _ after =>
      after.HasFrame (Key.ofText key) ⟨.list handle, expireAt⟩ ∧
        ∀ index, after.get? (Key.listItem key index) ≠ none →
          index ∈ consecutive first (done + rest.length) := by
  induction rest generalizing table target done with
  | nil => exact .pure ⟨hframe, fun index hget => by simpa using honly index hget⟩
  | cons source rest ih =>
      have htarget := htarget (List.cons_ne_nil _ _)
      have hsource := hle source List.mem_cons_self
      obtain ⟨hnextTarget, hnextLe⟩ := next_le_of_ascending hascending htarget (by omega)
      have hlower := ascending_lower hascending htarget (by omega)
      have hassoc : consecutive first done ++ target :: rest
          = consecutive first (done + 1) ++ rest := by
        rw [consecutive_concat htarget, List.append_assoc]
        rfl
      have hcount : done + (source :: rest).length = done + 1 + rest.length := by
        rw [List.length_cons]
        omega
      rw [hassoc] at hlower
      rw [hcount, closeHoles]
      by_cases hstay : target = source
      · subst hstay
        rw [hassoc] at honly
        rw [if_pos rfl, pure_bind]
        exact .bind (ih hframe hfirst honly hlower hnextTarget hnextLe) fun _ _ hafter =>
          .pure hafter
      · have hne : target.toInt ≠ source.toInt := fun heq => hstay (Int64.toInt_inj.mp heq)
        rw [if_neg hstay]
        have hlow : first.toInt ≤ target.toInt := by omega
        refine .bind (revises_moveItem hframe hfirst hlow (by omega)) ?_
        rintro _ between ⟨hframe, hfirst, hmoved⟩
        refine .bind (ih hframe hfirst (fun index hget => ?_) hlower hnextTarget hnextLe)
          fun _ _ hafter => .pure hafter
        rw [← hassoc]
        rcases hmoved index hget with rfl | ⟨hother, hthere⟩
        · simp
        · have hmem := honly index hthere
          simp only [List.mem_append, List.mem_cons] at hmem ⊢
          tauto

/-! ## Metadata of a repaired list -/

/-- New metadata is that of items at consecutive indices, if it can be made. -/
theorem finds_handleFrom (table : Table) (first : Int64) (count : Nat) :
    Finds table (handleFrom first count) fun next => next = consecutiveHandle first count := by
  obtain heq | ⟨cause, heq⟩ := handleFrom_cases first count
  · rw [heq]
    exact .pure rfl
  · rw [heq]
    exact .throw _

/-- Metadata of a repaired list that can be read counts its items right. -/
theorem lt_of_storable {first : Int64} {count : Nat}
    (hroom : first.toInt + count ≤ 9223372036854775808)
    (h : (Value.list (consecutiveHandle first count)).Storable) : count < 9223372036854775808 := by
  have hlow : -9223372036854775808 ≤ first.toInt := first.le_toInt
  have hlength : (Int64.ofNat count).toInt = (count : Int).bmod 18446744073709551616 :=
    Int64.toInt_ofNat
  rw [Int.bmod] at hlength
  rcases h with hempty | hpos
  · have hzero : (0 : Int64).toInt = 0 := rfl
    have hfirst : first = 0 := congrArg ListHandle.head hempty
    have hcount : Int64.ofNat count = 0 := congrArg ListHandle.length hempty
    rw [hfirst, hzero] at hroom
    rw [hcount, hzero] at hlength
    split at hlength <;> omega
  · simp only [consecutiveHandle] at hpos
    split at hlength <;> omega

/-- Metadata of a repaired list that can be read promises its items. -/
theorem describes_of_storable {present : List Int64} (h : Ascending present)
    (hstorable : (Value.list (settledHandle present)).Storable) :
    Describes (settledHandle present) present.length ∧ ∀ index ∈ settledIndices present,
      Spans key (settledHandle present) (Key.listItem key index) := by
  cases present with
  | nil => exact ⟨describes_empty, fun index hindex => by cases hindex⟩
  | cons first rest =>
      have hroom := room_of_ascending h
      have hdescribes := describes_settledHandle h (lt_of_storable hroom hstorable)
      refine ⟨hdescribes, fun index hindex => ⟨index, rfl, ?_⟩⟩
      have hbounds := mem_consecutive hroom hindex
      have htail := hdescribes.tail
      rw [List.length_cons] at htail
      simp only [settledHandle, consecutiveHandle] at htail ⊢
      omega

/-- The metadata is written over items at settled indices. -/
theorem revises_settle {present : List Int64} (report : Report)
    (hframe : table.HasFrame (Key.ofText key) ⟨.list handle, expireAt⟩)
    (hascending : Ascending present)
    (honly : ∀ index, table.get? (Key.listItem key index) ≠ none → index ∈ settledIndices present)
    (hreadable : permit.readable → (Value.list (settledHandle present)).Storable) :
    Amends permit key table
      (do
        if settledHandle present ≠ handle then
          Store.write (Key.ofText key) (.list (settledHandle present)) expireAt
        return report) := by
  refine .ite (fun _ => ?_) fun _ => .pure trivial
  refine .bind (.write fun _ hencode => .rehandle hframe hencode hreadable fun hstorable => ?_)
    fun _ _ _ => .pure trivial
  obtain ⟨hdescribes, hspans⟩ := describes_of_storable hascending hstorable
  refine ⟨⟨_, hdescribes⟩, ?_⟩
  rintro _ hget ⟨index, rfl, _⟩
  exact hspans index (honly index hget)

theorem revises_repairList
    (hframe : table.HasFrame (Key.ofText key) ⟨.list handle, expireAt⟩)
    (hreadable : permit.readable →
      table.countUnder (Key.itemStem key .list) < 9223372036854775808) :
    Amends permit key table (repairList key handle expireAt) := by
  refine .read (.scan table _) ?_
  rintro _ rfl
  refine .read (finds_lift table _) fun present hpresent => ?_
  obtain ⟨hlength, hrows⟩ := rows_of_indices
    (fun row hrow => ((Table.mem_rowsUnder table _ row).mp hrow).2) hpresent
  have hascending : Ascending present := by
    apply ascending_of_sorted hlength
    rw [hrows]
    exact Table.sorted_rowsUnder table _
  have hcount : table.countUnder (Key.itemStem key .list) = present.length := by
    rw [hlength, List.length_map]
    rfl
  have honly : ∀ index, table.get? (Key.listItem key index) ≠ none → index ∈ present := by
    intro index hget
    obtain ⟨contents, hcontents⟩ := Option.ne_none_iff_exists'.mp hget
    have hrow := (Table.mem_rowsUnder table (Key.itemStem key .list) (_, contents)).mpr
      ⟨hcontents, Key.itemStem_prefix_listItem key index⟩
    rw [← hrows] at hrow
    obtain ⟨other, hother, heq⟩ := exists_index_of_mem hrow
    rwa [(Key.listItem_inj key index other).mp heq]
  have hreadable : permit.readable → (Value.list (settledHandle present)).Storable :=
    fun h => (describes_settledHandle hascending (hcount ▸ hreadable h)).storable
  cases present with
  | nil =>
      refine .read (.pure rfl) ?_
      rintro _ rfl
      exact revises_settle _ hframe hascending honly hreadable
  | cons first rest =>
      have hfirst : table.get? (Key.listItem key first) ≠ none := by
        cases hitems : (table.rowsUnder (Key.itemStem key .list)).map (·.2) with
        | nil =>
            rw [hitems] at hlength
            cases hlength
        | cons item items =>
            rw [hitems] at hrows
            rw [@get?_of_rowsUnder table key [] rest [] items first item rfl hrows.symm]
            exact Option.some_ne_none item
      have hclose := @revises_closeHoles permit key table handle expireAt first first 0
        (first :: rest) hframe hfirst honly hascending (by simp) (le_of_ascending hascending)
      refine .bind hclose ?_
      rintro moved closed ⟨hframe, honly⟩
      rw [Nat.zero_add, List.length_cons] at honly
      refine .read (finds_handleFrom closed first (rest.length + 1)) ?_
      rintro _ rfl
      exact revises_settle _ hframe hascending honly hreadable

/-! ## Any value -/

/-- A repair makes edits only, whatever lies at the key. -/
theorem revises_repair (hreadable : permit.readable →
      table.countUnder (Key.itemStem key .list) < 9223372036854775808) :
    Amends permit key table (repair key) := by
  refine .read (finds_readExisting table _) ?_
  rintro ⟨value, expireAt⟩ hframe
  cases value with
  | list handle => exact revises_repairList hframe hreadable
  | map count =>
      exact @revises_recount permit key table expireAt .map .map count hframe (fun _ => rfl)
        (by decide)
  | set count =>
      exact @revises_recount permit key table expireAt .set .set count hframe (fun _ => rfl)
        (by decide)
  | series count =>
      exact @revises_recount permit key table expireAt .series .series count hframe (fun _ => rfl)
        (by decide)
  | bloom handle =>
      exact @revises_recount permit key table expireAt .bloom
        (fun count => .bloom { handle with count }) handle.count hframe (fun _ => rfl) (by decide)
  | _ => exact .pure trivial

end StructuredStore.Repair
