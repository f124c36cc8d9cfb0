import StructuredStore.Expiry
import StructuredStore.Proofs.Store.Consistency
import StructuredStore.Proofs.Store.Locality

/-!
# Bucket lists

A bucket is a list of the names of keys, or is absent.  Keys are enlisted at its
end, and a sweep takes all of them at once.

Main results:

- `Listed`: which names a bucket lists.
- `Enlisted`, `ends_enlist`: a name is listed, unless it is too long to be written.
- `ends_takeAll`: all names are taken, and nothing is left.
- `Filled`, `Filled.ends_enlist`: the rows of a bucket that is filled anew.
-/

namespace StructuredStore

open Engine Store

/-! ## Stored expiries -/

/-- The expiry in the frame of a key, if it has one. -/
def Table.expiryOf (table : Table) (key : String) : Option Instant :=
  (table.get? (Key.ofText key)).bind Frame.storedExpiry

/-- An absent key has no expiry. -/
theorem Table.expiryOf_absent {table : Table} {key : String}
    (h : table.get? (Key.ofText key) = none) : table.expiryOf key = none := by
  rw [expiryOf, h, Option.bind_none]

theorem Table.HasFrame.expiryOf_eq {table : Table} {key : String} {frame : Frame}
    (h : table.HasFrame (Key.ofText key) frame) : table.expiryOf key = frame.expireAt := by
  obtain ⟨bytes, hget, hdecode⟩ := h
  rw [Table.expiryOf, hget, Option.bind_some, ← Frame.expireAt_of_decode hdecode]

/-- What a key holds has the expiry in its frame. -/
theorem Holds.expiryOf_eq {table : Table} {key : String} {steps : Nat}
    {expireAt : Option Instant} (h : Holds table key steps expireAt) :
    table.expiryOf key = expireAt := by
  cases h with
  | vacant h hexpireAt =>
      rw [Table.expiryOf_absent (h _ (.self key)), hexpireAt]
  | scalar hget _ _ hexpireAt =>
      rw [Table.expiryOf, hget, Option.bind_some, hexpireAt]
  | deque h => exact h.frame.expiryOf_eq
  | tallied h => exact h.frame.expiryOf_eq

/-- A key that holds something that expires can be read. -/
theorem Holds.exists_frame {table : Table} {key : String} {steps : Nat} {instant : Instant}
    (h : Holds table key steps (some instant)) :
    ∃ frame, table.HasFrame (Key.ofText key) frame ∧ frame.expireAt = some instant := by
  have hfound : ∃ frame, table.HasFrame (Key.ofText key) frame := by
    cases h with
    | vacant _ hexpireAt => cases hexpireAt
    | scalar hget _ _ _ hreadable =>
        rcases hreadable (Option.some_ne_none instant) with ⟨frame, hdecode⟩
        exact ⟨frame, _, hget, hdecode⟩
    | deque h => exact ⟨_, h.frame⟩
    | tallied h => exact ⟨_, h.frame⟩
  rcases hfound with ⟨frame, hframe⟩
  exact ⟨frame, hframe, (h.expireAt_eq hframe).symm⟩

namespace Expiry

/-! ## Listed names -/

/-- Whether the name of a key can stand in a list. -/
def Writable (name : String) : Prop :=
  ∃ item, Frame.encode ⟨.text name, none⟩ = .ok item

/-- A name can be written if its length fits the length field. -/
theorem writable_of_length {name : String} (h : (Utf8.encode name).length < 4294967296) :
    Writable name := by
  have hpayload : Frame.payload (.text name)
      = .ok (Bytes.littleEndian 4 (Utf8.encode name).length ++ Utf8.encode name) := by
    simp only [Frame.payload, Frame.textField, Frame.prefixedField, if_pos h]
  exact Frame.exists_encode hpayload rfl

/-- Which names a bucket lists, in the order they were enlisted.  An absent
bucket lists none, and so may one that is there. -/
def Listed (table : Table) (bucket : String) (steps : Nat) (names : List String) : Prop :=
  (table.Vacant bucket ∧ names = []) ∨
    ∃ handle items, Deque.Stored table bucket handle none items ∧
      Deque.Holding items (names.map Value.text) ∧ names.length ≤ steps ∧ Deque.Near handle steps

variable {table : Table} {bucket : String} {steps : Nat} {names : List String}

theorem Listed.mono {more : Nat} (h : Listed table bucket steps names) (hle : steps ≤ more) :
    Listed table bucket more names := by
  rcases h with h | ⟨handle, items, hstored, hholding, hcount, hhead, htail⟩
  · exact Or.inl h
  · exact Or.inr ⟨handle, items, hstored, hholding, by omega, by omega, by omega⟩

/-- Nothing is listed in a bucket that is absent. -/
theorem listed_of_vacant (h : table.Vacant bucket) (steps : Nat) : Listed table bucket steps [] :=
  Or.inl ⟨h, rfl⟩

/-- A bucket that lists names for some number of steps holds a list, or
nothing. -/
theorem Listed.holds (h : Listed table bucket steps names) :
    Holds table bucket (steps + 1) none := by
  rcases h with ⟨hvacant, _⟩ | ⟨handle, items, hstored, hholding, hcount, hnear⟩
  · exact .vacant hvacant rfl
  · refine .deque hstored ?_ hnear (Nat.lt_succ_self steps)
    rw [hholding.length_eq, List.length_map]
    exact hcount

/-- Only what belongs to the bucket matters. -/
theorem Listed.congr {other : Table} (h : Listed table bucket steps names)
    (heq : ∀ physical, Key.Owns bucket physical → other.get? physical = table.get? physical) :
    Listed other bucket steps names := by
  rcases h with ⟨hvacant, hnames⟩ | ⟨handle, items, hstored, hrest⟩
  · exact Or.inl ⟨fun physical howns => (heq physical howns).trans (hvacant physical howns), hnames⟩
  · refine Or.inr ⟨handle, items, ⟨hstored.frame.congr (heq _ (.self bucket)), hstored.describes,
      hstored.spread.congr fun physical hstem => heq physical (.under hstem), ?_⟩, hrest⟩
    intro marker hmarker
    rw [← hstored.bare marker hmarker]
    exact Table.countUnder_congr fun physical hstem => heq physical (.under hstem)

/-- A bucket that is absent lists nothing, and has no rows at all. -/
theorem Listed.vacant (h : Listed table bucket steps names)
    (habsent : table.get? (Key.ofText bucket) = none) : table.Vacant bucket ∧ names = [] := by
  rcases h with h | ⟨handle, items, hstored, _⟩
  · exact h
  · exact absurd habsent hstored.frame.get?_ne_none

/-- A bucket that lists a name is there. -/
theorem Listed.get?_ne_none (h : Listed table bucket steps names) (hnames : names ≠ []) :
    table.get? (Key.ofText bucket) ≠ none :=
  fun habsent => hnames (h.vacant habsent).2

/-! ## Enlisting and taking -/

/-- What enlisting a name leads to: it is listed behind the others, unless it
cannot be written. -/
inductive Enlisted {α : Type} (bucket : String) (steps : Nat) (names : List String)
    (name : String) (after : Table) : Except StoreError α → Prop where
  | listed {a : α} (hwritable : Writable name)
      (h : Listed after bucket (steps + 1) (names ++ [name])) :
      Enlisted bucket steps names name after (.ok a)
  | refused {e : StoreError} (hwritable : ¬ Writable name) (h : Listed after bucket steps names) :
      Enlisted bucket steps names name after (.error e)

/-- A name whose frame is refused cannot be written. -/
theorem not_writable {name : String} {fault : DataError}
    (h : Frame.encode ⟨.text name, none⟩ = .error fault) : ¬ Writable name := by
  rintro ⟨item, hitem⟩
  rw [h] at hitem
  cases hitem

/-- A name is listed behind the others, unless it cannot be written. -/
theorem ends_enlist (h : Listed table bucket steps names)
    (hsteps : steps + 1 < 9223372036854775808) (name : String) :
    Ends table (enlist bucket name) fun outcome after =>
      Enlisted bucket steps names name after outcome := by
  have hdecode : ∀ {item : Bytes}, Frame.encode ⟨.text name, none⟩ = .ok item →
      Frame.decode item = .ok ⟨.text name, none⟩ := fun hitem => Frame.decode_encode hitem trivial
  have hpush : Ends table (Deque.pushRightCreating bucket (.text name)) fun outcome after =>
      Enlisted bucket steps names name after outcome := by
    rcases h with ⟨hvacant, rfl⟩ | ⟨handle, items, hstored, hholding, hcount, hnear⟩
    · refine (Deque.ends_pushRightCreating_vacant hvacant (.text name)).conseq ?_
      rintro (e | length) after hafter
      · rcases hafter with ⟨hempty, fault, hfault⟩
        apply Enlisted.refused (not_writable hfault)
        exact Or.inr ⟨.empty, [], hempty, rfl, Nat.zero_le _, Deque.near_empty _⟩
      · rcases hafter with ⟨item, hitem, hstored⟩
        have hgrown := (Deque.near_empty steps).grown (by decide : ¬ Deque.Full .empty .right)
        refine .listed ⟨item, hitem⟩ (Or.inr ⟨_, [item], hstored, ?_, by simp, hgrown⟩)
        simp [Deque.Holding, hdecode hitem]
    · have hitems : items.length ≤ steps := by
        rw [hholding.length_eq, List.length_map]
        exact hcount
      have hroom := hnear.not_full hstored.describes hitems hsteps .right
      have hrun := Deque.run_pushRightCreating hstored (.text name)
      rcases Deque.ends_push hstored (.text name) .right with ⟨outcome, after, hpush, hafter⟩
      refine .of_run (hrun.trans hpush) ?_
      cases outcome with
      | error e =>
          rcases hafter with ⟨rfl, hfull | ⟨fault, hfault⟩⟩
          · exact absurd hfull hroom
          · apply Enlisted.refused (not_writable hfault)
            exact Or.inr ⟨handle, items, hstored, hholding, hcount, hnear⟩
      | ok length =>
          rcases hafter with ⟨_, _, item, hitem, hstored'⟩
          refine .listed ⟨item, hitem⟩ (Or.inr ⟨_, _, hstored', ?_, ?_, hnear.grown hroom⟩)
          · unfold Deque.Holding at hholding ⊢
            simp [Deque.End.add, hholding, hdecode hitem]
          · rw [List.length_append, List.length_singleton]
            omega
  refine .bind hpush ?_ ?_
  · intro e after hafter
    cases hafter with
    | refused hwritable hlisted => exact .refused hwritable hlisted
  · intro length after hafter
    cases hafter with
    | listed hwritable hlisted => exact .pure (.listed hwritable hlisted)

/-- A sweep takes all names and leaves nothing. -/
theorem ends_takeAll (h : Listed table bucket steps names) :
    Ends table (Deque.takeAll bucket) fun outcome after =>
      outcome = .ok (names.map .text) ∧ after.Vacant bucket := by
  rcases h with ⟨hvacant, rfl⟩ | ⟨handle, items, hstored, hholding, _⟩
  · exact .of_run (Deque.run_takeAll_vacant hvacant) ⟨rfl, hvacant⟩
  · exact Deque.ends_takeAll hstored hholding

/-! ## Buckets that are filled anew -/

/-- The rows that names leave which are enlisted in a bucket one after the other,
when nothing was there before. -/
def freshRows (bucket : String) (names : List String) : Table :=
  names.foldl (fun table name => ((enlist bucket name).run (ofTable table)).2.table) .empty

/-- Whether a bucket has the rows, indices and metadata included, of one in which
exactly these names were enlisted. -/
def Filled (table : Table) (bucket : String) (names : List String) : Prop :=
  table.AgreeOn (Key.Owns bucket) (freshRows bucket names)

theorem filled_of_vacant (h : table.Vacant bucket) : Filled table bucket [] :=
  fun physical howns => (h physical howns).trans (Table.get?_empty physical).symm

theorem Filled.congr {other : Table} (h : Filled table bucket names)
    (heq : ∀ physical, Key.Owns bucket physical → other.get? physical = table.get? physical) :
    Filled other bucket names :=
  fun physical howns => (heq physical howns).trans (h physical howns)

/-- The names settle every row of a bucket that was filled anew. -/
theorem Filled.get?_eq {other : Table} (h : Filled table bucket names)
    (hother : Filled other bucket names) {physical : Bytes} (howns : Key.Owns bucket physical) :
    other.get? physical = table.get? physical :=
  (hother physical howns).trans (h physical howns).symm

theorem Filled.ends_enlist (h : Filled table bucket names) (name : String) :
    Ends table (enlist bucket name) fun _ after => Filled after bucket (names ++ [name]) := by
  have hmirrors : Mirrors (Key.Owns bucket) (enlist bucket name) :=
    .bind (Deque.mirrors_pushRightCreating bucket (.text name)) fun _ => .pure _
  obtain ⟨outcome, after, fresh, hrun, hfresh, hafter⟩ := hmirrors table _ h
  refine .of_run hrun ?_
  rw [Filled, freshRows, List.foldl_concat, ← freshRows, hfresh]
  exact hafter

end Expiry
end StructuredStore
