import StructuredStore.Proofs.Deque.Removal
import StructuredStore.Proofs.Store.Edits

/-!
# Edits of a list

The operations on a list write its metadata behind the items that go and behind
the items that come.  An item that goes first leaves metadata that promises too
much; one that comes first is promised by nothing until the metadata is
written, and if that fails it lies beside the list.

Main results:

- `endures_push`: a push is one edit, or leaves its item beside the list.
- `revises_pop`, `revises_set`, `revises_trim`: the others make edits only.
-/

namespace StructuredStore.Deque

open Engine Store

variable {permit : Permit} {key : String} {table : Table} {physical : Bytes} {handle : ListHandle}
  {count : Nat}

/-- Whether metadata at the key, if it can be read, is that of a list with some
number of items. -/
def Regular (table : Table) (key : String) : Prop :=
  ∀ handle expireAt, table.HasFrame (Key.ofText key) ⟨.list handle, expireAt⟩ →
    ∃ count, Describes handle count

theorem Regular.congr {after : Table} (h : Regular table key)
    (hself : after.get? (Key.ofText key) = table.get? (Key.ofText key)) : Regular after key :=
  fun handle expireAt hframe => h handle expireAt (hframe.congr hself.symm)

/-- Metadata that was written says whether it counts items. -/
theorem Regular.of_insert {contents : Bytes}
    (h : ∀ handle expireAt, Frame.decode contents = .ok ⟨.list handle, expireAt⟩ →
      ∃ count, Describes handle count) : Regular (table.insert (Key.ofText key) contents) key := by
  intro handle expireAt ⟨bytes, hget, hdecode⟩
  rw [Table.get?_insert_self] at hget
  cases hget
  exact h handle expireAt hdecode

/-! ## Pushing -/

/-- A push writes its item and then the metadata.  If that fails, the item lies
beside the list. -/
theorem endures_push (hregular : Regular table key) (side : End) {value : Value}
    (hitem : ∀ bytes, Frame.encode ⟨value, none⟩ = .ok bytes → permit.item bytes) :
    Endures table (push key value side) fun outcome after => Edits permit key table after ∨
      (∃ e, outcome = .error e) ∧ Torn permit key table after := by
  refine (finds_readHandle table key).before (fun _ => Or.inl .refl) ?_
  intro ⟨handle, expireAt⟩ (hframe : table.HasFrame (Key.ofText key) ⟨.list handle, expireAt⟩)
  obtain ⟨count, hdescribes⟩ := hregular handle expireAt hframe
  refine (finds_grow table handle side).before (fun _ => Or.inl .refl) ?_
  rintro _ ⟨hroom, rfl⟩
  have hpushed : ∀ item, Frame.encode ⟨value, none⟩ = .ok item →
      ∀ contents, Frame.encode ⟨.list (grown handle side), expireAt⟩ = .ok contents →
        Edits permit key table ((table.insert (Key.listItem key (newIndex handle side)) item).insert
          (Key.ofText key) contents) :=
    fun item hencode _ hcontents =>
      .single (.push hframe hdescribes hroom (hitem item hencode) hcontents)
  have htorn : ∀ item, Frame.encode ⟨value, none⟩ = .ok item →
      Torn permit key table (table.insert (Key.listItem key (newIndex handle side)) item) :=
    fun item hencode => ⟨handle, expireAt, _, item, hframe, hitem item hencode, rfl⟩
  refine endures_write_bind (fun _ => Or.inl .refl)
    (fun item hencode e => Or.inr ⟨⟨e, rfl⟩, htorn item hencode⟩) fun item hencode => ?_
  exact endures_write_bind (fun e => Or.inr ⟨⟨e, rfl⟩, htorn item hencode⟩)
    (fun contents hcontents _ => Or.inl (hpushed item hencode contents hcontents))
    fun contents hcontents => .pure (Or.inl (hpushed item hencode contents hcontents))

/-! ## Removing an item -/

/-- All items but the one at an end lie in what is left of the list. -/
theorem Spans.shrunk {side : End} (hdescribes : Describes handle count)
    (hspans : Spans key handle physical)
    (hne : physical ≠ Key.listItem key (endIndex handle side)) :
    Spans key (Deque.shrunk handle side) physical := by
  obtain ⟨index, rfl, hlow, hhigh⟩ := hspans
  have hlength := hdescribes.length
  have htail := hdescribes.tail
  have hbottom : -9223372036854775808 ≤ handle.head.toInt := handle.head.le_toInt
  have htop : handle.tail.toInt ≤ 9223372036854775807 := handle.tail.toInt_le
  have hindex : index.toInt ≠ (endIndex handle side).toInt :=
    fun heq => hne (congrArg _ (Int64.toInt_inj.mp heq))
  refine ⟨index, rfl, ?_⟩
  unfold Deque.shrunk
  by_cases hlast : handle.length = 1
  · -- The only item is at both ends.
    have hone : (1 : Int64).toInt = 1 := rfl
    rw [hlast, hone] at hlength
    cases side <;> simp only [endIndex] at hindex <;> omega
  · rw [if_neg hlast]
    cases side with
    | left =>
        simp only [endIndex] at hindex
        have hnext := @toInt_add_one handle.head (by omega)
        constructor <;> simp only <;> omega
    | right =>
        simp only [endIndex] at hindex
        have hback := @toInt_sub_one handle.tail (by omega)
        constructor <;> simp only <;> omega

theorem revises_pop (hregular : Regular table key) (side : End) :
    Amends permit key table (pop key side) := by
  refine .read (finds_readHandle table key) ?_
  intro ⟨handle, expireAt⟩ (hframe : table.HasFrame (Key.ofText key) ⟨.list handle, expireAt⟩)
  obtain ⟨count, hdescribes⟩ := hregular handle expireAt hframe
  refine .guard fun hlength => ?_
  have hpop : Amends permit key table
      (do
        let value ← requireItem key (endIndex handle side)
        Engine.delete (Key.listItem key (endIndex handle side))
        writeHandle key (← shrink handle side) expireAt
        return value) := by
    refine .read (.of_readOnly (confined_requireItem key _)) fun value _ => ?_
    refine .delete_bind (.dropItem (Key.itemStem_prefix_listItem key _)) ?_
    have hframe := hframe.congr (Table.get?_erase_of_ne table (listItem_ne_ofText key
      (endIndex handle side)))
    have hshrink : Describes (shrunk handle side) (count - 1) := by
      apply describes_shrunk
      have hpos : count ≠ 0 := fun hzero => hlength (hdescribes.length_eq_zero_iff.mpr hzero)
      rwa [Nat.sub_add_cancel (by omega)]
    refine .read (finds_shrink _ handle side) ?_
    rintro _ rfl
    refine .bind (.write fun _ hencode => .rehandle hframe hencode (fun _ => hshrink.storable)
      fun _ => ⟨⟨_, hshrink⟩, fun physical hget hspans => ?_⟩) fun _ _ _ => .pure trivial
    refine hspans.shrunk hdescribes ?_
    rintro rfl
    exact hget (Table.get?_erase_self table _)
  cases side <;> exact hpop

/-! ## Replacing an item -/

theorem finds_locate (table : Table) (hdescribes : Describes handle count) (position : Int64) :
    Finds table (locate handle position) fun index =>
      handle.head.toInt ≤ index.toInt ∧ index.toInt ≤ handle.tail.toInt := by
  unfold locate
  by_cases hout : normalize position.toInt handle.length.toInt < 0 ∨
      handle.length.toInt ≤ normalize position.toInt handle.length.toInt
  · rw [if_pos hout]
    exact .throw _
  · rw [if_neg hout]
    have hlength := hdescribes.length
    have htail := hdescribes.tail
    refine (finds_inRange table _ _).mono fun index hindex => ?_
    omega

theorem revises_set (hregular : Regular table key) (position : Int64) {value : Value}
    (hitem : ∀ bytes, Frame.encode ⟨value, none⟩ = .ok bytes → permit.item bytes) :
    Amends permit key table (set key position value) := by
  refine .read (finds_readHandle table key) ?_
  intro ⟨handle, expireAt⟩ (hframe : table.HasFrame (Key.ofText key) ⟨.list handle, expireAt⟩)
  obtain ⟨count, hdescribes⟩ := hregular handle expireAt hframe
  refine .read (finds_locate table hdescribes position) fun index hindex => ?_
  exact .write fun bytes hencode => .setItem hframe hindex.1 hindex.2 (hitem bytes hencode)

/-! ## Keeping a part -/

theorem revises_trim (hregular : Regular table key) (start stop : Int64) :
    Amends permit key table (trim key start stop) := by
  refine .read (finds_readHandle table key) ?_
  intro ⟨handle, expireAt⟩ (hframe : table.HasFrame (Key.ofText key) ⟨.list handle, expireAt⟩)
  obtain ⟨count, hdescribes⟩ := hregular handle expireAt hframe
  have hlength := hdescribes.length
  have htail := hdescribes.tail
  have htop : handle.tail.toInt ≤ 9223372036854775807 := handle.tail.toInt_le
  refine .ite (fun _ => .pure trivial) fun _ => ?_
  cases hspan : span? start.toInt stop.toInt handle.length.toInt with
  | none =>
      refine .bind (revises_removeIndices _ _) fun _ between hbetween => ?_
      refine .write fun _ hencode => .rehandle (hframe.congr hbetween.1) hencode
        (fun _ => describes_empty.storable) fun _ => ⟨⟨0, describes_empty⟩, ?_⟩
      rintro _ hget ⟨index, rfl, hlow, hhigh⟩
      have hcount := hdescribes.spanLength_eq
      rw [(hbetween.2.2 (by omega)).at_index, if_pos (by omega)] at hget
      exact absurd rfl hget
  | some span =>
      obtain ⟨first, last⟩ := span
      obtain ⟨hlow, hle, hhigh⟩ := span?_eq_some hspan
      refine .read (finds_inRange _ _ _) fun head hhead => ?_
      refine .read (finds_inRange _ _ _) fun tail hlast => ?_
      have hpart := @describes_part handle (List.replicate count []) (by simpa using hdescribes)
        first last head tail hlow hle (by simp; omega) hhead hlast
      refine .bind (revises_removeIndices _ _) fun _ front hfront => ?_
      refine .read (finds_inRange _ _ _) fun next hnext => ?_
      refine .bind (revises_removeIndices _ _) fun _ between hbetween => ?_
      refine .write fun _ hencode => .rehandle (hframe.congr (hbetween.1.trans hfront.1)) hencode
        (fun _ => hpart.storable) fun _ => ⟨⟨_, hpart⟩, ?_⟩
      rintro _ hget ⟨index, rfl, hlowIndex, hhighIndex⟩
      have hkept : front.get? (Key.listItem key index) ≠ none := by
        rcases hbetween.2.1 (Key.listItem key index) with hsame | hgone
        · rwa [← hsame]
        · exact absurd hgone hget
      refine ⟨index, rfl, ?_, ?_⟩
      · by_contra hbefore
        simp only at hbefore
        rw [(hfront.2.2 (by omega)).at_index, if_pos (by omega)] at hkept
        exact hkept rfl
      · by_contra hbehind
        simp only at hbehind
        have hcount : (spanLength next handle.tail : Int)
            = handle.tail.toInt - tail.toInt := by
          rw [spanLength]
          omega
        rw [(hbetween.2.2 (by omega)).at_index, if_pos (by omega)] at hget
        exact hget rfl

end StructuredStore.Deque
