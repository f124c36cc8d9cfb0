import StructuredStore.Proofs.Deque.Removal
import StructuredStore.Proofs.Store.Tally
import StructuredStore.Store.FieldMap
import StructuredStore.Store.Scalar

/-!
# What a key holds

In every state that operations lead to, a logical key holds one of four things:
nothing, a value without items, a list, or a structure that counts its items.
The shapes are closed under the steps that the operations are made of.

Main results:

- `Holds`: what a key holds after a number of operations.
- `Holds.list`, `Holds.counted`, `Holds.bloom`: what the metadata says is there.
- `Holds.ends_purge`: everything that a key holds can be removed.
- `Holds.insert_scalar`, `Holds.insert_expiry`: a written value, or a written
  expiry.
-/

namespace StructuredStore

open Engine Store

/-- What the table holds for a logical key after so many operations, and with
which expiry. -/
inductive Holds (table : Table) (key : String) (steps : Nat) (expireAt : Option Instant) :
    Prop where
  /-- Nothing at all. -/
  | vacant (h : table.Vacant key) (hexpireAt : expireAt = none)
  /-- A value of another kind than the structures.  One that expires can be
  read. -/
  | scalar {bytes : Bytes} {kind : Kind} (hget : table.get? (Key.ofText key) = some bytes)
      (hkind : Frame.peekKind bytes = .ok kind) (hscalar : kind.isStructure = false)
      (hexpireAt : Frame.storedExpiry bytes = expireAt)
      (hreadable : expireAt ≠ none → ∃ frame, Frame.decode bytes = .ok frame)
      (hbare : ∀ marker, table.countUnder (Key.itemStem key marker) = 0)
  /-- A list.  One of the steps created it and pushed nothing. -/
  | deque {handle : ListHandle} {items : List Bytes} {pushes : Nat}
      (h : Deque.Stored table key handle expireAt items) (hlength : items.length ≤ pushes)
      (hnear : Deque.Near handle pushes) (hpushes : pushes < steps)
  /-- A structure that counts its items. -/
  | tallied {marker : Key.Marker} {metadata : UInt64 → Value} {count : UInt64}
      (h : Tallied table key marker metadata count expireAt) (hcount : count.toNat ≤ steps)

namespace Holds

variable {table : Table} {key : String} {steps : Nat} {expireAt : Option Instant} {frame : Frame}

theorem succ (h : Holds table key steps expireAt) : Holds table key (steps + 1) expireAt := by
  cases h with
  | vacant h hexpireAt => exact .vacant h hexpireAt
  | scalar hget hkind hscalar hexpireAt hreadable hbare =>
      exact .scalar hget hkind hscalar hexpireAt hreadable hbare
  | deque h hlength hnear hpushes => exact .deque h hlength hnear (by omega)
  | tallied h hcount => exact .tallied h (by omega)

theorem mono {more : Nat} (h : Holds table key steps expireAt) (hle : steps ≤ more) :
    Holds table key more expireAt := by
  induction hle with
  | refl => exact h
  | step _ ih => exact ih.succ

theorem of_empty (key : String) (steps : Nat) : Holds .empty key steps none :=
  .vacant (fun physical _ => Table.get?_empty physical) rfl

/-- Only what belongs to the key matters. -/
theorem congr {other : Table} (h : Holds table key steps expireAt)
    (heq : ∀ physical, Key.Owns key physical → other.get? physical = table.get? physical) :
    Holds other key steps expireAt := by
  have hself := heq _ (.self key)
  have hcount : ∀ marker, other.countUnder (Key.itemStem key marker)
      = table.countUnder (Key.itemStem key marker) := fun marker =>
    Table.countUnder_congr fun physical hstem => heq physical (.under hstem)
  cases h with
  | vacant h hexpireAt =>
      exact .vacant (fun physical howns => (heq physical howns).trans (h physical howns)) hexpireAt
  | scalar hget hkind hscalar hexpireAt hreadable hbare =>
      exact .scalar (hself.trans hget) hkind hscalar hexpireAt hreadable fun marker => by
        rw [hcount, hbare]
  | deque h hlength hnear hpushes =>
      refine .deque ⟨h.frame.congr hself, h.describes, h.spread.congr ?_, ?_⟩ hlength hnear hpushes
      · exact fun physical hstem => heq physical (.under hstem)
      · intro marker hmarker
        rw [hcount, h.bare marker hmarker]
  | tallied h hcounted => exact .tallied (h.congr heq) hcounted

/-! ## What the metadata says -/

/-- A key whose frame is absent holds nothing. -/
theorem vacant_of_none (h : Holds table key steps expireAt)
    (hget : table.get? (Key.ofText key) = none) : table.Vacant key ∧ expireAt = none := by
  cases h with
  | vacant h hexpireAt => exact ⟨h, hexpireAt⟩
  | scalar hget' => simp [hget] at hget'
  | deque h => exact absurd hget h.frame.get?_ne_none
  | tallied h => exact absurd hget h.frame.get?_ne_none

/-- The expiry is the one in the frame. -/
theorem expireAt_eq (h : Holds table key steps expireAt)
    (hframe : table.HasFrame (Key.ofText key) frame) : expireAt = frame.expireAt := by
  cases h with
  | vacant h _ => exact absurd (h _ (.self key)) hframe.get?_ne_none
  | scalar hget _ _ hexpireAt =>
      rcases hframe with ⟨bytes, hget', hdecode⟩
      rw [hget] at hget'
      cases hget'
      rw [Frame.expireAt_of_decode hdecode, hexpireAt]
  | deque h => exact (congrArg Frame.expireAt (hframe.unique h.frame)).symm
  | tallied h => exact (congrArg Frame.expireAt (hframe.unique h.frame)).symm

/-- A frame with the metadata of a list is that of a stored list. -/
theorem list {handle : ListHandle} {expireAt' : Option Instant}
    (h : Holds table key steps expireAt)
    (hframe : table.HasFrame (Key.ofText key) ⟨.list handle, expireAt'⟩) :
    ∃ items pushes, Deque.Stored table key handle expireAt' items ∧ items.length ≤ pushes ∧
      Deque.Near handle pushes ∧ pushes < steps := by
  have hsame := h.expireAt_eq hframe
  subst hsame
  cases h with
  | vacant h _ => exact absurd (h _ (.self key)) hframe.get?_ne_none
  | scalar hget hkind hscalar =>
      rcases hframe with ⟨bytes, hget', hdecode⟩
      rw [hget] at hget'
      cases hget'
      rw [Frame.peekKind_of_decode hdecode] at hkind
      cases hkind
      cases hscalar
  | deque h hlength hnear hpushes =>
      cases h.frame.unique hframe
      exact ⟨_, _, h, hlength, hnear, hpushes⟩
  | tallied h =>
      have hvalue := congrArg Frame.value (h.frame.unique hframe)
      cases h.counts with
      | counted counted => cases counted <;> cases hvalue
      | bloom _ => cases hvalue

/-- A frame with a count is that of a structure that counts its items. -/
theorem tallied_of_frame {marker : Key.Marker} {metadata : UInt64 → Value} {count : UInt64}
    {expireAt' : Option Instant} (h : Holds table key steps expireAt)
    (hframe : table.HasFrame (Key.ofText key) ⟨metadata count, expireAt'⟩)
    (hstructure : (metadata count).kind.isStructure = true)
    (hlist : ∀ handle, metadata count ≠ .list handle)
    (hcounts : ∀ {other : Key.Marker} {metadata' : UInt64 → Value} {count' : UInt64},
      Counts other metadata' → metadata' count' = metadata count →
        other = marker ∧ metadata' = metadata ∧ count' = count) :
    Tallied table key marker metadata count expireAt' ∧ count.toNat ≤ steps := by
  have hsame := h.expireAt_eq hframe
  subst hsame
  cases h with
  | vacant h _ => exact absurd (h _ (.self key)) hframe.get?_ne_none
  | scalar hget hkind hscalar =>
      rcases hframe with ⟨bytes, hget', hdecode⟩
      rw [hget] at hget'
      cases hget'
      rw [Frame.peekKind_of_decode hdecode] at hkind
      cases hkind
      rw [hstructure] at hscalar
      cases hscalar
  | deque h =>
      exact absurd (congrArg Frame.value (h.frame.unique hframe)).symm (hlist _)
  | tallied h hcount =>
      rcases hcounts h.counts (congrArg Frame.value (h.frame.unique hframe)) with ⟨rfl, rfl, rfl⟩
      exact ⟨h, hcount⟩

theorem counted {structure_ : Counted} {count : UInt64} {expireAt' : Option Instant}
    (h : Holds table key steps expireAt)
    (hframe : table.HasFrame (Key.ofText key) ⟨structure_.metadata count, expireAt'⟩) :
    Tallied table key structure_.marker structure_.metadata count expireAt' ∧
      count.toNat ≤ steps := by
  apply h.tallied_of_frame hframe
  · cases structure_ <;> rfl
  · intro handle heq
    cases structure_ <;> cases heq
  · intro other metadata' count' hcounts heq
    cases hcounts with
    | counted other => cases structure_ <;> cases other <;> cases heq <;> exact ⟨rfl, rfl, rfl⟩
    | bloom _ => cases structure_ <;> cases heq

theorem bloom {handle : BloomHandle} {expireAt' : Option Instant}
    (h : Holds table key steps expireAt)
    (hframe : table.HasFrame (Key.ofText key) ⟨.bloom handle, expireAt'⟩) :
    Tallied table key .bloom (fun count => .bloom { handle with count }) handle.count expireAt' ∧
      handle.count.toNat ≤ steps := by
  refine @tallied_of_frame table key steps expireAt .bloom
    (fun count => .bloom { handle with count }) handle.count expireAt' h hframe rfl ?_ ?_
  · exact fun _ heq => by cases heq
  · intro other metadata' count' hcounts heq
    cases hcounts with
    | counted other => cases other <;> cases heq
    | bloom _ =>
        cases heq
        exact ⟨rfl, rfl, rfl⟩

/-! ## Removing -/

/-- All that a key holds can be removed. -/
theorem ends_purge (h : Holds table key steps expireAt)
    (hframe : table.HasFrame (Key.ofText key) frame) :
    Ends table (purge key frame.value) fun outcome after =>
      outcome = .ok () ∧ after.Vacant key := by
  rcases frame with ⟨value, expireAt'⟩
  cases h with
  | vacant h _ => exact absurd (h _ (.self key)) hframe.get?_ne_none
  | scalar hget hkind hscalar _ _ hbare =>
      have hdelete : (purge key value).run (ofTable table)
          = (.ok (), ofTable (table.erase (Key.ofText key))) := by
        rcases hframe with ⟨bytes, hget', hdecode⟩
        rw [hget] at hget'
        cases hget'
        rw [Frame.peekKind_of_decode hdecode] at hkind
        cases hkind
        cases value <;> first | rfl | cases hscalar
      refine .of_run hdelete ⟨rfl, ?_⟩
      rw [Table.vacant_iff]
      refine ⟨Table.get?_erase_self table _, fun marker => ?_⟩
      rw [Table.countUnder_erase_outside table (Key.not_itemStem_prefix_ofText key marker),
        hbare marker]
  | deque h =>
      cases h.frame.unique hframe
      exact Deque.ends_purge h
  | tallied h =>
      cases h.frame.unique hframe
      exact h.ends_purge

/-! ## Writing -/

/-- Where nothing or no structure lies, no items lie. -/
theorem bare (h : Holds table key steps expireAt)
    (hscalar : ∀ bytes kind, table.get? (Key.ofText key) = some bytes →
      Frame.peekKind bytes = .ok kind → kind.isStructure = false) (marker : Key.Marker) :
    table.countUnder (Key.itemStem key marker) = 0 := by
  have hnot : ∀ value, table.HasFrame (Key.ofText key) ⟨value, expireAt⟩ →
      value.kind.isStructure = false := by
    rintro value ⟨bytes, hget, hdecode⟩
    exact hscalar bytes _ hget (Frame.peekKind_of_decode hdecode)
  cases h with
  | vacant h _ => exact ((Table.vacant_iff table key).mp h).2 marker
  | scalar _ _ _ _ _ hbare => exact hbare marker
  | deque h => cases hnot _ h.frame
  | tallied h =>
      have hstructure := hnot _ h.frame
      cases h.counts with
      | counted counted => cases counted <;> cases hstructure
      | bloom _ => cases hstructure

/-- A value that is no structure is written where no items lie. -/
theorem insert_scalar {value : Value} {expireAt' : Option Instant} {bytes : Bytes}
    (hbare : ∀ marker, table.countUnder (Key.itemStem key marker) = 0)
    (hencode : Frame.encode ⟨value, expireAt'⟩ = .ok bytes)
    (hscalar : value.kind.isStructure = false)
    (hstorable : Frame.asStored expireAt' ≠ none → value.Storable) (steps : Nat) :
    Holds (table.insert (Key.ofText key) bytes) key steps (Frame.asStored expireAt') := by
  refine .scalar (Table.get?_insert_self table _ bytes) (Frame.peekKind_encode hencode) hscalar
    (Frame.storedExpiry_encode hencode) ?_ ?_
  · intro hexpireAt
    exact ⟨_, Frame.decode_encode hencode (hstorable hexpireAt)⟩
  · intro marker
    rw [Table.countUnder_insert_outside table _ (Key.not_itemStem_prefix_ofText key marker),
      hbare marker]

/-- What a key holds stays when it is written again with another expiry. -/
theorem insert_expiry {expireAt' : Option Instant} {bytes : Bytes}
    (h : Holds table key steps expireAt) (hframe : table.HasFrame (Key.ofText key) frame)
    (hencode : Frame.encode ⟨frame.value, expireAt'⟩ = .ok bytes) :
    Holds (table.insert (Key.ofText key) bytes) key steps (Frame.asStored expireAt') := by
  have hstored := Frame.encode_asStored hencode
  have hexpireAt : Frame.asStored (Frame.asStored expireAt') = Frame.asStored expireAt' := by
    rw [← Frame.storedExpiry_encode hencode, Frame.asStored_storedExpiry]
  cases h with
  | vacant h _ => exact absurd (h _ (.self key)) hframe.get?_ne_none
  | scalar hget hkind hscalar _ _ hbare =>
      rcases hframe with ⟨bytes', hget', hdecode⟩
      rw [hget] at hget'
      cases hget'
      rw [Frame.peekKind_of_decode hdecode] at hkind
      cases hkind
      exact insert_scalar hbare hencode hscalar (fun _ => Frame.storable_of_decode hdecode) steps
  | deque h hlength hnear hpushes =>
      cases h.frame.unique hframe
      have hlist := Deque.Stored.of_insert_ofText hstored hexpireAt h.describes h.spread h.bare
      exact .deque hlist hlength hnear hpushes
  | tallied h hcount =>
      cases h.frame.unique hframe
      exact .tallied (.of_insert_ofText h.counts hstored hexpireAt h.rows h.bare) hcount

/-- A new structure without items. -/
theorem insert_new {marker : Key.Marker} {metadata : UInt64 → Value} {bytes : Bytes}
    (h : table.Vacant key) (hcounts : Counts marker metadata)
    (hencode : Frame.encode ⟨metadata 0, none⟩ = .ok bytes) (steps : Nat) :
    Holds (table.insert (Key.ofText key) bytes) key steps none := by
  rcases (Table.vacant_iff table key).mp h with ⟨_, hstems⟩
  exact .tallied (.of_insert_ofText hcounts hencode rfl (hstems marker) fun other _ => hstems other)
    (Nat.zero_le steps)

end Holds
end StructuredStore
