import StructuredStore.Proofs.Deque.Access

/-!
# Changing single items of lists

What the operations that work on one item of a list make of a stored one.  Each
of them leaves a stored list behind, with the contents that the operation is
named for, or fails and leaves the table as it was.

Main results:

- `stored_empty`: a new list.
- `ends_push`, `ends_pop`: an item more or less at an end.
- `ends_set`: one item replaced.
-/

namespace StructuredStore.Deque

open Engine Store

variable {table : Table} {key : String} {handle : ListHandle} {expireAt : Option Instant}
  {items : List Bytes}

/-! ## Creating -/

/-- Empty metadata over nothing is an empty list. -/
theorem stored_empty {contents : Bytes} (h : table.Vacant key)
    (hencode : Frame.encode ⟨.list .empty, none⟩ = .ok contents) :
    Stored (table.insert (Key.ofText key) contents) key .empty none [] := by
  rcases (Table.vacant_iff table key).mp h with ⟨_, hstems⟩
  exact .of_insert_ofText hencode rfl describes_empty ((Spread.nil_iff _).mpr (hstems .list))
    fun marker _ => hstems marker

/-- The metadata of an empty list can be written. -/
theorem exists_encode_empty : ∃ contents, Frame.encode ⟨.list .empty, none⟩ = .ok contents :=
  Frame.exists_encode rfl rfl

/-! ## Pushing -/

/-- A list with one more item at an end. -/
def End.add {α : Type} : End → α → List α → List α
  | .left, a, list => a :: list
  | .right, a, list => list ++ [a]

@[simp]
theorem End.length_add {α : Type} (side : End) (a : α) (list : List α) :
    (side.add a list).length = list.length + 1 := by
  cases side <;> simp [End.add]

/-- Whether the metadata cannot count another item, or reaches the last index. -/
def Full (handle : ListHandle) : End → Prop
  | .left => handle.length = Int64.maxValue ∨ handle.head = Int64.minValue
  | .right => handle.length = Int64.maxValue ∨ handle.tail = Int64.maxValue

instance (handle : ListHandle) (side : End) : Decidable (Full handle side) := by
  cases side <;> exact inferInstanceAs (Decidable (_ ∨ _))

/-- The index of a new item. -/
def newIndex (handle : ListHandle) : End → Int64
  | .left => handle.head - 1
  | .right => handle.tail + 1

/-- The metadata with a new item. -/
def grown (handle : ListHandle) : End → ListHandle
  | .left => { handle with head := handle.head - 1, length := handle.length + 1 }
  | .right => { handle with tail := handle.tail + 1, length := handle.length + 1 }

theorem run_grow_full {side : End} (h : Full handle side) (engine : Engine) :
    (grow handle side).run engine = (.error .overflow, engine) := by
  unfold grow
  by_cases hlength : handle.length = Int64.maxValue
  · simp only [if_pos hlength]
    rfl
  · simp only [if_neg hlength]
    cases side with
    | left =>
        simp only [if_pos (h.resolve_left hlength)]
        rfl
    | right =>
        simp only [if_pos (h.resolve_left hlength)]
        rfl

theorem run_grow {side : End} (h : ¬ Full handle side) (engine : Engine) :
    (grow handle side).run engine = (.ok (grown handle side, newIndex handle side), engine) := by
  unfold grow
  cases side with
  | left =>
      rcases not_or.mp h with ⟨hlength, hhead⟩
      simp only [if_neg hlength, if_neg hhead]
      rfl
  | right =>
      rcases not_or.mp h with ⟨hlength, htail⟩
      simp only [if_neg hlength, if_neg htail]
      rfl

/-- An index that is not the greatest one has a next one. -/
theorem lt_of_ne_maxValue {i : Int64} (h : i ≠ Int64.maxValue) :
    i.toInt < 9223372036854775807 := by
  have hhigh : i.toInt ≤ 9223372036854775807 := i.toInt_le
  have hne : i.toInt ≠ 9223372036854775807 := fun heq => h (Int64.toInt_inj.mp heq)
  omega

theorem lt_of_ne_minValue {i : Int64} (h : i ≠ Int64.minValue) :
    -9223372036854775808 < i.toInt := by
  have hlow : -9223372036854775808 ≤ i.toInt := i.le_toInt
  have hne : i.toInt ≠ -9223372036854775808 := fun heq => h (Int64.toInt_inj.mp heq)
  omega

/-- The metadata with a new item counts one more. -/
theorem length_grown {side : End} (h : ¬ Full handle side) :
    (grown handle side).length.toInt = handle.length.toInt + 1 := by
  cases side with
  | left => exact toInt_add_one (lt_of_ne_maxValue (not_or.mp h).1)
  | right => exact toInt_add_one (lt_of_ne_maxValue (not_or.mp h).1)

/-- The metadata with a new item describes one more, and the new item lies next
to the others. -/
theorem describes_grown {side : End} {count : Nat} (h : Describes handle count)
    (hroom : ¬ Full handle side) : Describes (grown handle side) (count + 1) := by
  have htail := h.tail
  have hnext := length_grown hroom
  rw [h.length] at hnext
  cases side with
  | left =>
      have hback := toInt_sub_one (lt_of_ne_minValue (not_or.mp hroom).2)
      refine ⟨hnext, ?_, by simp⟩
      simp only [grown]
      rw [hback]
      push_cast
      omega
  | right =>
      have hlast := toInt_add_one (lt_of_ne_maxValue (not_or.mp hroom).2)
      refine ⟨hnext, ?_, by simp⟩
      simp only [grown]
      rw [hlast]
      push_cast
      omega

/-- The metadata with a new item can be read back. -/
theorem storable_grown {side : End} (h : (Value.list handle).Storable)
    (hroom : ¬ Full handle side) : (Value.list (grown handle side)).Storable := by
  have hnext := length_grown hroom
  have hlow : 0 ≤ handle.length.toInt := by
    rcases h with hempty | hpos
    · rw [hempty]
      decide
    · exact hpos.le
  have hpos : 0 < (grown handle side).length.toInt := by omega
  cases side <;> exact Or.inr hpos

/-- Fewer pushes than there are indices do not fill a list. -/
theorem Near.not_full {steps count : Nat} (h : Near handle steps) (hdescribes : Describes handle count)
    (hcount : count ≤ steps) (hsteps : steps + 1 < 9223372036854775808) (side : End) :
    ¬ Full handle side := by
  have hlength := hdescribes.length
  have hmax : Int64.maxValue.toInt = 9223372036854775807 := rfl
  have hmin : Int64.minValue.toInt = -9223372036854775808 := rfl
  rcases h with ⟨hhead, htail⟩
  have hlong : handle.length ≠ Int64.maxValue := by
    intro heq
    rw [heq] at hlength
    omega
  cases side with
  | left =>
      refine not_or.mpr ⟨hlong, fun heq => ?_⟩
      rw [heq] at hhead
      omega
  | right =>
      refine not_or.mpr ⟨hlong, fun heq => ?_⟩
      rw [heq] at htail
      omega

theorem Near.grown {steps : Nat} {side : End} (h : Near handle steps)
    (hroom : ¬ Full handle side) : Near (grown handle side) (steps + 1) := by
  rcases h with ⟨hhead, htail⟩
  cases side with
  | left =>
      have hback := toInt_sub_one (lt_of_ne_minValue (not_or.mp hroom).2)
      constructor <;> simp only [Deque.grown] <;> push_cast <;> omega
  | right =>
      have hlast := toInt_add_one (lt_of_ne_maxValue (not_or.mp hroom).2)
      constructor <;> simp only [Deque.grown] <;> push_cast <;> omega

/-- The items once a new one was written at an end. -/
theorem Spread.grown {side : End} (h : Spread table key handle.head.toInt items)
    (hdescribes : Describes handle items.length) (hroom : ¬ Full handle side) (item : Bytes) :
    Spread (table.insert (Key.listItem key (newIndex handle side)) item) key
      (Deque.grown handle side).head.toInt (side.add item items) := by
  have htail := hdescribes.tail
  cases side with
  | left =>
      have hback := toInt_sub_one (lt_of_ne_minValue (not_or.mp hroom).2)
      have hcons := h.cons hback item
      rwa [← hback] at hcons
  | right =>
      have hlast := toInt_add_one (lt_of_ne_maxValue (not_or.mp hroom).2)
      exact h.concat (by rw [newIndex, hlast]; omega) item

/-- Under the other stems a write of a list item changes nothing. -/
theorem countUnder_insert_listItem (table : Table) (key : String) (index : Int64) (item : Bytes)
    {marker : Key.Marker} (hmarker : marker ≠ .list) :
    (table.insert (Key.listItem key index) item).countUnder (Key.itemStem key marker) =
      table.countUnder (Key.itemStem key marker) := by
  apply Table.countUnder_insert_outside
  intro hstem
  exact hmarker (Key.marker_eq_of_stems hstem (Key.itemStem_prefix_listItem key index))

/-- A list stays a list when an item and the grown metadata are written. -/
theorem Stored.pushed {side : End} {contents : Bytes}
    (h : Stored table key handle expireAt items) (hroom : ¬ Full handle side) (item : Bytes)
    (hencode : Frame.encode ⟨.list (Deque.grown handle side), expireAt⟩ = .ok contents) :
    Stored ((table.insert (Key.listItem key (newIndex handle side)) item).insert
      (Key.ofText key) contents) key (Deque.grown handle side) expireAt (side.add item items) := by
  apply Stored.of_insert_ofText hencode h.frame.asStored_expireAt
  · rw [End.length_add]
    exact describes_grown h.describes hroom
  · exact h.spread.grown h.describes hroom item
  · intro marker hmarker
    rw [countUnder_insert_listItem _ _ _ _ hmarker, h.bare marker hmarker]

/-- A push adds an item at its end, unless the metadata is full or the value
cannot be written. -/
theorem ends_push (h : Stored table key handle expireAt items) (value : Value) (side : End) :
    Ends table (push key value side) fun outcome after =>
      match outcome with
      | .error _ => after = table ∧
          (Full handle side ∨ ∃ fault, Frame.encode ⟨value, none⟩ = .error fault)
      | .ok length => ¬ Full handle side ∧ length.toInt = items.length + 1 ∧
          ∃ item, Frame.encode ⟨value, none⟩ = .ok item ∧
            Stored after key (grown handle side) expireAt (side.add item items) := by
  refine .bind_run (run_readHandle h.frame) ?_
  by_cases hfull : Full handle side
  · exact .bind_error (run_grow_full hfull _) ⟨rfl, Or.inl hfull⟩
  · refine .bind_run (run_grow hfull _) ?_
    cases hitem : Frame.encode ⟨value, none⟩ with
    | error fault => exact .bind_error (run_write_error hitem) ⟨rfl, Or.inr ⟨fault, rfl⟩⟩
    | ok item =>
        rcases h.exists_encode (grown handle side) with ⟨contents, hcontents⟩
        have hdescribes := describes_grown h.describes hfull
        refine .bind_run (run_write hitem) (.bind_run (run_write hcontents) (.pure ?_))
        refine ⟨hfull, ?_, item, rfl, ?_⟩
        · exact hdescribes.length
        · exact h.pushed hfull item hcontents

/-- A push onto a list that is created if the key is absent. -/
theorem ends_pushRightCreating_vacant (h : table.Vacant key) (value : Value) :
    Ends table (pushRightCreating key value) fun outcome after =>
      match outcome with
      | .error _ => Stored after key .empty none [] ∧
          ∃ fault, Frame.encode ⟨value, none⟩ = .error fault
      | .ok _ => ∃ item, Frame.encode ⟨value, none⟩ = .ok item ∧
          Stored after key (grown .empty .right) none [item] := by
  rcases exists_encode_empty with ⟨contents, hcontents⟩
  have hstored := stored_empty h hcontents
  refine .bind_run (run_read_none (h _ (.self key))) (.bind_run (run_write hcontents) ?_)
  refine (ends_push hstored value .right).conseq ?_
  rintro (e | length) after hafter
  · rcases hafter with ⟨rfl, hfull | hfault⟩
    · exact absurd hfull (by decide)
    · exact ⟨hstored, hfault⟩
  · rcases hafter with ⟨_, _, item, hitem, hstored'⟩
    exact ⟨item, hitem, hstored'⟩

/-- A push onto a list that is there. -/
theorem run_pushRightCreating (h : Stored table key handle expireAt items) (value : Value) :
    (pushRightCreating key value).run (ofTable table) =
      (push key value .right).run (ofTable table) := by
  rw [pushRightCreating, run_bind_ok (run_read h.frame)]
  rfl

/-! ## Popping -/

/-- The item at an end and the list without it. -/
def End.remove? {α : Type} : End → List α → Option (α × List α)
  | .left, [] => none
  | .left, a :: list => some (a, list)
  | .right, list => list.getLast?.map fun a => (a, list.dropLast)

/-- What a removed item leaves. -/
theorem End.length_of_remove? {α : Type} {side : End} {list rest : List α} {a : α}
    (h : side.remove? list = some (a, rest)) : list.length = rest.length + 1 := by
  cases side with
  | left =>
      cases list with
      | nil => cases h
      | cons b list =>
          cases h
          rfl
  | right =>
      rcases Option.map_eq_some_iff.mp h with ⟨b, hb, heq⟩
      cases heq
      have hne : list ≠ [] := by
        rintro rfl
        cases hb
      have hpos := List.length_pos_iff.mpr hne
      rw [List.length_dropLast]
      omega

theorem End.eq_nil_of_remove? {α : Type} {side : End} {list : List α}
    (h : side.remove? list = none) : list = [] := by
  cases side with
  | left =>
      cases list with
      | nil => rfl
      | cons _ _ => cases h
  | right => exact List.getLast?_eq_none_iff.mp (Option.map_eq_none_iff.mp h)

/-- The index of the item at an end. -/
def endIndex (handle : ListHandle) : End → Int64
  | .left => handle.head
  | .right => handle.tail

/-- The item at an end is the first or the last one. -/
theorem Stored.get?_endIndex (h : Stored table key handle expireAt items) {side : End}
    {item : Bytes} {rest : List Bytes} (hremove : side.remove? items = some (item, rest)) :
    table.get? (Key.listItem key (endIndex handle side)) = some item := by
  have hlength := End.length_of_remove? hremove
  have htail := h.describes.tail
  cases side with
  | left =>
      have hget : table.get? (Key.listItem key handle.head) = items[0]? :=
        h.get?_place (by simp)
      rw [endIndex, hget]
      cases items with
      | nil => cases hremove
      | cons first items =>
          cases hremove
          rfl
  | right =>
      have hget : table.get? (Key.listItem key handle.tail) = items[items.length - 1]? :=
        h.get?_place (by omega)
      rcases Option.map_eq_some_iff.mp hremove with ⟨last, hlast, heq⟩
      cases heq
      rw [endIndex, hget, ← List.getLast?_eq_getElem?, hlast]

/-- The metadata without the item at an end. -/
def shrunk (handle : ListHandle) (side : End) : ListHandle :=
  if handle.length = 1 then .empty
  else
    match side with
    | .left => { handle with head := handle.head + 1, length := handle.length - 1 }
    | .right => { handle with tail := handle.tail - 1, length := handle.length - 1 }

/-- The index next to the item at an end. -/
def nextIndex (handle : ListHandle) : End → Int
  | .left => handle.head.toInt + 1
  | .right => handle.tail.toInt - 1

/-- An item is taken off the metadata if the index next to it is in range. -/
theorem shrink_of_fits {handle : ListHandle} {side : End}
    (h : handle.length ≠ 1 → FitsInt64 (nextIndex handle side)) :
    shrink handle side = pure (shrunk handle side) := by
  unfold shrink shrunk
  split
  · rfl
  · rename_i hmore
    cases side with
    | left =>
        have hfits : FitsInt64 (handle.head.toInt + 1) := h hmore
        simp only [sum_of_fits hfits, pure_bind, Int64.ofInt_add, Int64.ofInt_toInt]
        rfl
    | right =>
        have hfits : FitsInt64 (handle.tail.toInt - 1) := h hmore
        simp only [difference_of_fits hfits, pure_bind, Int64.ofInt_sub, Int64.ofInt_toInt]
        rfl

/-- Otherwise that breaks off. -/
theorem shrink_of_not_fits {handle : ListHandle} {side : End} (hmore : handle.length ≠ 1)
    (h : ¬ FitsInt64 (nextIndex handle side)) :
    ∃ cause, shrink handle side = throw (.aborted cause) := by
  unfold shrink
  rw [if_neg hmore]
  cases side with
  | left =>
      have hnot : ¬ FitsInt64 (handle.head.toInt + 1) := h
      exact ⟨.sum, by simp only [sum_of_not_fits hnot]; rfl⟩
  | right =>
      have hnot : ¬ FitsInt64 (handle.tail.toInt - 1) := h
      exact ⟨.difference, by simp only [difference_of_not_fits hnot]; rfl⟩

/-- Taking an item off the metadata succeeds or breaks off. -/
theorem shrink_cases (handle : ListHandle) (side : End) :
    shrink handle side = pure (shrunk handle side) ∨
      ∃ cause, shrink handle side = throw (.aborted cause) := by
  by_cases h : handle.length ≠ 1 → FitsInt64 (nextIndex handle side)
  · exact Or.inl (shrink_of_fits h)
  · obtain ⟨hmore, hnot⟩ := Classical.not_imp.mp h
    exact Or.inr (shrink_of_not_fits hmore hnot)

/-- The metadata of a list with items does not break off. -/
theorem shrink_eq {count : Nat} (h : Describes handle (count + 1)) (side : End) :
    shrink handle side = pure (shrunk handle side) := by
  have hlength := h.length
  have htail := h.tail
  have hone : (1 : Int64).toInt = 1 := rfl
  have hhigh : handle.tail.toInt ≤ 9223372036854775807 := handle.tail.toInt_le
  have hlow : -9223372036854775808 ≤ handle.head.toInt := handle.head.le_toInt
  refine shrink_of_fits fun hmore => ?_
  have hcount : count ≠ 0 := by
    rintro rfl
    exact hmore (Int64.toInt_inj.mp (by rw [hlength, hone]; rfl))
  cases side with
  | left => exact ⟨by dsimp only [nextIndex]; omega, by dsimp only [nextIndex]; omega⟩
  | right => exact ⟨by dsimp only [nextIndex]; omega, by dsimp only [nextIndex]; omega⟩

/-- The metadata without an item describes one less. -/
theorem describes_shrunk {side : End} {count : Nat} (h : Describes handle (count + 1)) :
    Describes (shrunk handle side) count := by
  have hlength := h.length
  have htail := h.tail
  have hone : (1 : Int64).toInt = 1 := rfl
  have hhigh : handle.tail.toInt ≤ 9223372036854775807 := handle.tail.toInt_le
  have hlow : -9223372036854775808 ≤ handle.head.toInt := handle.head.le_toInt
  unfold shrunk
  by_cases hlast : handle.length = 1
  · rw [if_pos hlast]
    have hcount : count = 0 := by
      rw [hlast, hone] at hlength
      omega
    rw [hcount]
    exact describes_empty
  · have hcount : count ≠ 0 := by
      rintro rfl
      exact hlast (Int64.toInt_inj.mp (by rw [hlength, hone]; rfl))
    have hless := @toInt_sub_one handle.length (by omega)
    rw [if_neg hlast]
    cases side with
    | left =>
        have hnext := @toInt_add_one handle.head (by omega)
        refine ⟨?_, ?_, fun hzero => absurd hzero hcount⟩
        · simp only
          omega
        · simp only
          omega
    | right =>
        have hback := @toInt_sub_one handle.tail (by omega)
        refine ⟨?_, ?_, fun hzero => absurd hzero hcount⟩
        · simp only
          omega
        · simp only
          omega

/-- The metadata without an item can be read back. -/
theorem storable_shrunk (side : End) (h : (Value.list handle).Storable)
    (hlength : handle.length ≠ 0) : (Value.list (shrunk handle side)).Storable := by
  unfold shrunk
  by_cases hlast : handle.length = 1
  · rw [if_pos hlast]
    exact Or.inl rfl
  · rcases h with hempty | hpos
    · rw [hempty] at hlength
      exact absurd rfl hlength
    · have hone : (1 : Int64).toInt = 1 := rfl
      have hmore : handle.length.toInt ≠ 1 := fun heq =>
        hlast (Int64.toInt_inj.mp (heq.trans hone.symm))
      have hless := @toInt_sub_one handle.length (by omega)
      have hrest : 0 < (handle.length - 1).toInt := by omega
      rw [if_neg hlast]
      cases side <;> exact Or.inr hrest

theorem Near.shrunk {steps count : Nat} (h : Near handle steps)
    (hdescribes : Describes handle (count + 1)) (side : End) : Near (shrunk handle side) steps := by
  have hlength := hdescribes.length
  have htop := hdescribes.tail
  have hhigh : handle.tail.toInt ≤ 9223372036854775807 := handle.tail.toInt_le
  have hlow : -9223372036854775808 ≤ handle.head.toInt := handle.head.le_toInt
  have hone : (1 : Int64).toInt = 1 := rfl
  rcases h with ⟨hhead, htail⟩
  unfold Deque.shrunk
  by_cases hlast : handle.length = 1
  · rw [if_pos hlast]
    exact near_empty steps
  · have hcount : count ≠ 0 := by
      rintro rfl
      exact hlast (Int64.toInt_inj.mp (by rw [hlength, hone]; rfl))
    rw [if_neg hlast]
    cases side with
    | left =>
        have hnext := @toInt_add_one handle.head (by omega)
        constructor <;> simp only <;> omega
    | right =>
        have hback := @toInt_sub_one handle.tail (by omega)
        constructor <;> simp only <;> omega

/-- What is left of the items when the one at an end was removed. -/
theorem Stored.spread_erase (h : Stored table key handle expireAt items) {side : End}
    {item : Bytes} {rest : List Bytes} (hremove : side.remove? items = some (item, rest)) :
    Spread (table.erase (Key.listItem key (endIndex handle side))) key
      (shrunk handle side).head.toInt rest := by
  have hcount := End.length_of_remove? hremove
  have hlength := h.describes.length
  have htail := h.describes.tail
  have hone : (1 : Int64).toInt = 1 := rfl
  have hspread : ∃ head : Int, Spread (table.erase (Key.listItem key (endIndex handle side))) key
      head rest ∧ (handle.length ≠ 1 → (shrunk handle side).head.toInt = head) := by
    cases side with
    | left =>
        cases items with
        | nil => cases hremove
        | cons first items =>
            cases hremove
            refine ⟨handle.head.toInt + 1, h.spread.erase_first rfl, fun hmore => ?_⟩
            have hrest : rest.length ≠ 0 := fun hzero =>
              hmore (Int64.toInt_inj.mp (by rw [hlength, hone, hcount, hzero]; rfl))
            have hhigh : handle.tail.toInt ≤ 9223372036854775807 := handle.tail.toInt_le
            rw [shrunk, if_neg hmore]
            exact toInt_add_one (by omega)
    | right =>
        rcases Option.map_eq_some_iff.mp hremove with ⟨last, hlast, heq⟩
        cases heq
        have hsplit : items = items.dropLast ++ [item] :=
          (List.dropLast_append_getLast? item hlast).symm
        have hitems := h.spread
        rw [hsplit] at hitems
        refine ⟨handle.head.toInt, hitems.erase_last ?_, fun hmore => by rw [shrunk, if_neg hmore]⟩
        rw [endIndex]
        omega
  rcases hspread with ⟨head, hspread, hhead⟩
  by_cases hlast : handle.length = 1
  · -- The last item of all: nothing is left, wherever the empty list starts.
    have hrest : rest = [] := by
      rw [hlast, hone] at hlength
      exact List.length_eq_zero_iff.mp (by omega)
    rw [hrest] at hspread ⊢
    exact hspread.nil_of_nil
  · rwa [hhead hlast]

/-- A list stays a list when an item is removed and the shrunk metadata is
written. -/
theorem Stored.popped {side : End} {item contents : Bytes} {rest : List Bytes}
    (h : Stored table key handle expireAt items)
    (hremove : side.remove? items = some (item, rest))
    (hencode : Frame.encode ⟨.list (shrunk handle side), expireAt⟩ = .ok contents) :
    Stored ((table.erase (Key.listItem key (endIndex handle side))).insert (Key.ofText key)
      contents) key (shrunk handle side) expireAt rest := by
  have hdescribes := h.describes
  rw [End.length_of_remove? hremove] at hdescribes
  apply Stored.of_insert_ofText hencode h.frame.asStored_expireAt
  · exact describes_shrunk hdescribes
  · exact h.spread_erase hremove
  · intro marker hmarker
    rw [(Without.erase table key _).countUnder_eq hmarker, h.bare marker hmarker]

/-- A pop answers the item at its end and removes it; a broken item stays. -/
theorem ends_pop (h : Stored table key handle expireAt items) (side : End) :
    Ends table (pop key side) fun outcome after =>
      match side.remove? items with
      | none => outcome = .error .empty ∧ after = table
      | some (item, rest) => outcome = valueOf item ∧
          match outcome with
          | .error _ => after = table
          | .ok _ => Stored after key (shrunk handle side) expireAt rest := by
  refine .bind_run (run_readHandle h.frame) (.guard ?_ ?_)
  · intro hlength
    have hzero := h.describes.length_eq_zero_iff.mp hlength
    have hnil : items = [] := List.length_eq_zero_iff.mp hzero
    rw [hnil]
    cases side <;> exact ⟨rfl, rfl⟩
  · intro hlength
    cases hremove : side.remove? items with
    | none =>
        exfalso
        apply hlength
        rw [h.describes.length_eq_zero_iff, End.eq_nil_of_remove? hremove]
        rfl
    | some removed =>
        rcases removed with ⟨item, rest⟩
        have hrequire := run_requireItem (h.get?_endIndex hremove)
        dsimp only
        cases hvalue : valueOf item with
        | error e =>
            rw [hvalue] at hrequire
            exact .bind_error hrequire ⟨rfl, rfl⟩
        | ok value =>
            rw [hvalue] at hrequire
            rcases h.exists_encode (shrunk handle side) with ⟨contents, hcontents⟩
            have hdescribes := h.describes
            rw [End.length_of_remove? hremove] at hdescribes
            refine .bind_run hrequire (.bind_run (run_delete _ _) ?_)
            rw [shrink_eq hdescribes side, pure_bind]
            exact .bind_run (run_write hcontents) (.pure ⟨rfl, h.popped hremove hcontents⟩)

/-! ## Replacing -/

/-- An item of the list lies elsewhere than its metadata. -/
theorem listItem_ne_ofText (key : String) (index : Int64) :
    Key.listItem key index ≠ Key.ofText key := by
  intro heq
  exact Key.not_itemStem_prefix_ofText key .list (heq ▸ Key.itemStem_prefix_listItem key index)

/-- A list stays a list when one item is written over. -/
theorem Stored.replace {place : Nat} {index : Int64}
    (h : Stored table key handle expireAt items) (hplace : place < items.length)
    (hindex : index.toInt = handle.head.toInt + place) (item : Bytes) :
    Stored (table.insert (Key.listItem key index) item) key handle expireAt
      (items.set place item) := by
  constructor
  · exact h.frame.congr (Table.get?_insert_of_ne table item (listItem_ne_ofText key index))
  · rw [List.length_set]
    exact h.describes
  · exact h.spread.set hplace hindex item
  · intro marker hmarker
    rw [countUnder_insert_listItem _ _ _ _ hmarker, h.bare marker hmarker]

/-- A replaced item keeps its place; there is none outside the list. -/
theorem ends_set (h : Stored table key handle expireAt items) (position : Int64)
    (value : Value) :
    Ends table (set key position value) fun outcome after =>
      match place? items.length position with
      | none => outcome = .error .outOfRange ∧ after = table
      | some place =>
          match Frame.encode ⟨value, none⟩ with
          | .error _ => (∃ e, outcome = .error e) ∧ after = table
          | .ok item => outcome = .ok () ∧
              Stored after key handle expireAt (items.set place item) := by
  rcases run_locate h.describes position (ofTable table) with ⟨outcome, hlocate, houtcome⟩
  refine .bind_run (run_readHandle h.frame) ?_
  cases hplace : place? items.length position with
  | none =>
      rw [hplace] at houtcome
      subst houtcome
      exact .bind_error hlocate ⟨rfl, rfl⟩
  | some place =>
      rw [hplace] at houtcome
      rcases houtcome with ⟨index, rfl, hindex⟩
      have hlt := lt_of_place? hplace
      refine .bind_run hlocate ?_
      cases hitem : Frame.encode ⟨value, none⟩ with
      | error fault => exact .of_run (run_write_error hitem) ⟨⟨_, rfl⟩, rfl⟩
      | ok item =>
          exact .of_run (run_write hitem) ⟨rfl, h.replace hlt hindex item⟩

end StructuredStore.Deque
