import StructuredStore.Proofs.Repair.Restoration
import StructuredStore.Proofs.Store.Footprint

/-!
# Operations keep keys consistent

What a key holds stays of one of the four shapes when an operation works on it.
The expiry stays too or is cleared; only the operations that set one give it
another value.

Main results:

- `Evolves`: what may become of a key in one operation.
- `Holds.ends_perform`: every operation on a key but those that set an expiry.
- `Holds.ends_stamp`: the write that sets an expiry.
-/

namespace StructuredStore

open Engine Store

/-- What a key may hold after one more operation. -/
def Evolves (key : String) (steps : Nat) (expireAt : Option Instant) (after : Table) : Prop :=
  ∃ next, (next = expireAt ∨ next = none) ∧ Holds after key (steps + 1) next

namespace Holds

variable {α : Type} {table : Table} {key : String} {steps : Nat} {expireAt : Option Instant}

/-- A step that was counted evolves what holds at the key. -/
theorem evolves (h : Holds table key (steps + 1) expireAt) : Evolves key steps expireAt table :=
  ⟨expireAt, Or.inl rfl, h⟩

/-- What changes nothing evolves it, too. -/
theorem same (h : Holds table key steps expireAt) : Evolves key steps expireAt table :=
  h.succ.evolves

/-- A key that was emptied. -/
theorem cleared {after : Table} (h : after.Vacant key) : Evolves key steps expireAt after :=
  ⟨none, Or.inr rfl, .vacant h rfl⟩

/-! ## Counted structures -/

/-- What becomes of a structure when its count changes by one at most. -/
theorem evolves_tallied {after : Table} {marker : Key.Marker} {metadata : UInt64 → Value}
    {count : UInt64} (hcount : count.toNat ≤ steps)
    (h : ∃ next : UInt64, next.toNat ≤ count.toNat + 1 ∧
      Tallied after key marker metadata next expireAt) : Evolves key steps expireAt after := by
  rcases h with ⟨next, hnext, htallied⟩
  exact (Holds.tallied htallied (by omega)).evolves

/-- An operation that reads the count of a structure first. -/
theorem ends_counted {counted : Counted} {next : UInt64 × Option Instant → StoreM α}
    (h : Holds table key steps expireAt)
    (hnext : ∀ count, Tallied table key counted.marker counted.metadata count expireAt →
      count.toNat ≤ steps →
      Ends table (next (count, expireAt)) fun _ after => Evolves key steps expireAt after) :
    Ends table (readCount key counted >>= next) fun _ after =>
      Evolves key steps expireAt after := by
  refine .bind (ends_readCount table key counted) ?_ ?_
  · rintro e between ⟨rfl, _⟩
    exact h.same
  · rintro ⟨count, expireAt'⟩ between ⟨rfl, hfound⟩
    have hframe := hfound _ rfl
    have hsame := h.expireAt_eq hframe
    subst hsame
    rcases h.counted hframe with ⟨htallied, hcount⟩
    exact hnext count htallied hcount

/-- The metadata of a filter is found, or its reading fails. -/
theorem ends_readBloom (table : Table) (key : String) :
    Ends table (Membership.readHandle key) fun outcome after => after = table ∧
      ∀ found, outcome = .ok found →
        table.HasFrame (Key.ofText key) ⟨.bloom found.1, found.2⟩ := by
  refine .bind (ends_readAs table _ .bloom) ?_ ?_
  · rintro e between ⟨rfl, _⟩
    exact ⟨rfl, fun _ h => by cases h⟩
  · rintro ⟨value, expireAt⟩ between ⟨rfl, hframe⟩
    rcases hframe _ rfl with ⟨hfound, hkind⟩
    cases value with
    | bloom handle => exact .pure ⟨rfl, fun _ h => by cases h; exact hfound⟩
    | _ => cases hkind

/-- An operation that reads the metadata of a filter first. -/
theorem ends_bloom {next : BloomHandle × Option Instant → StoreM α}
    (h : Holds table key steps expireAt)
    (hnext : ∀ handle : BloomHandle,
      Tallied table key .bloom (fun count => .bloom { handle with count }) handle.count expireAt →
      handle.count.toNat ≤ steps →
      Ends table (next (handle, expireAt)) fun _ after => Evolves key steps expireAt after) :
    Ends table (Membership.readHandle key >>= next) fun _ after =>
      Evolves key steps expireAt after := by
  refine .bind (ends_readBloom table key) ?_ ?_
  · rintro e between ⟨rfl, _⟩
    exact h.same
  · rintro ⟨handle, expireAt'⟩ between ⟨rfl, hfound⟩
    have hframe := hfound _ rfl
    have hsame := h.expireAt_eq hframe
    subst hsame
    rcases h.bloom hframe with ⟨htallied, hcount⟩
    exact hnext handle htallied hcount

section Counted

variable (h : Holds table key steps expireAt) (hsteps : steps + 1 < 9223372036854775808)

include h hsteps

/-- Writing a field of a map. -/
theorem ends_mapSet (field : String) (value : Value) :
    Ends table (FieldMap.set key field value) fun _ after => Evolves key steps expireAt after :=
  h.ends_counted fun _ htallied hcount =>
    (htallied.ends_putItem (List.prefix_append _ _) (by omega) value).conseq fun _ _ hafter =>
      evolves_tallied hcount hafter

/-- Adding a member to a set. -/
theorem ends_setAdd (member : String) :
    Ends table (MemberSet.add key member) fun _ after => Evolves key steps expireAt after :=
  h.ends_counted fun _ htallied hcount =>
    (htallied.ends_putNewItem (List.prefix_append _ _) (by omega) .null).conseq fun _ _ hafter =>
      evolves_tallied hcount hafter

/-- Adding a point to a series. -/
theorem ends_seriesAdd (instant : Instant) (value : Value) :
    Ends table (Series.add key instant value) fun _ after => Evolves key steps expireAt after := by
  refine h.ends_counted fun count htallied hcount => ?_
  cases hpoint : Key.instantSelector instant with
  | error fault =>
      rw [Series.pointKey_error key hpoint]
      exact .throw h.same
  | ok selector =>
      dsimp only
      rw [Series.pointKey_ok key hpoint, pure_bind]
      exact (htallied.ends_putItem (List.prefix_append _ _) (by omega) value).conseq
        fun _ _ hafter => evolves_tallied hcount hafter

/-- Adding an item to a filter. -/
theorem ends_bloomAdd (item : String) :
    Ends table (Membership.add key item) fun _ after => Evolves key steps expireAt after :=
  h.ends_bloom fun _ htallied hcount =>
    (htallied.ends_putItem (List.prefix_append _ _) (by omega) _).conseq fun _ _ hafter =>
      evolves_tallied hcount hafter

omit hsteps

/-- Removing a field of a map. -/
theorem ends_mapRemove (field : String) :
    Ends table (FieldMap.remove key field) fun _ after => Evolves key steps expireAt after :=
  h.ends_counted fun _ htallied hcount =>
    (htallied.ends_takeItem (List.prefix_append _ _)).conseq fun _ _ hafter =>
      evolves_tallied hcount hafter

/-- Removing a member of a set. -/
theorem ends_setRemove (member : String) :
    Ends table (MemberSet.remove key member) fun _ after => Evolves key steps expireAt after :=
  h.ends_counted fun _ htallied hcount =>
    (htallied.ends_takeItem (List.prefix_append _ _)).conseq fun _ _ hafter =>
      evolves_tallied hcount hafter

/-- Removing a point of a series. -/
theorem ends_seriesRemove (instant : Instant) :
    Ends table (Series.remove key instant) fun _ after => Evolves key steps expireAt after := by
  refine h.ends_counted fun count htallied hcount => ?_
  cases hpoint : Key.instantSelector instant with
  | error fault =>
      rw [Series.pointKey_error key hpoint]
      exact .throw h.same
  | ok selector =>
      dsimp only
      rw [Series.pointKey_ok key hpoint, pure_bind]
      exact (htallied.ends_takeItem (List.prefix_append _ _)).conseq fun _ _ hafter =>
        evolves_tallied hcount hafter

/-- Clearing a filter. -/
theorem ends_bloomClear :
    Ends table (Membership.clear key) fun _ after => Evolves key steps expireAt after :=
  h.ends_bloom fun _ htallied hcount =>
    htallied.ends_clear.conseq fun _ _ hafter => evolves_tallied hcount ⟨0, by simp, hafter.2⟩

end Counted

/-! ## Lists -/

/-- An operation that reads the metadata of a list first. -/
theorem ends_listed {next : ListHandle × Option Instant → StoreM α}
    (h : Holds table key steps expireAt)
    (hnext : ∀ handle items pushes, Deque.Stored table key handle expireAt items →
      items.length ≤ pushes → Deque.Near handle pushes → pushes < steps →
      Ends table (Deque.readHandle key >>= next) fun _ after => Evolves key steps expireAt after) :
    Ends table (Deque.readHandle key >>= next) fun _ after =>
      Evolves key steps expireAt after := by
  rcases Deque.ends_readHandle table key with ⟨outcome, after, hrun, rfl, hfound⟩
  cases outcome with
  | error e => exact .bind_error hrun h.same
  | ok found =>
      have hframe := hfound _ rfl
      have hsame := h.expireAt_eq hframe
      subst hsame
      rcases h.list hframe with ⟨items, pushes, hstored, hcount, hnear, hpushes⟩
      exact hnext _ items pushes hstored hcount hnear hpushes

section Lists

variable (h : Holds table key steps expireAt) (hsteps : steps + 1 < 9223372036854775808)

include h

/-- Pushing an item at either end of a list. -/
theorem ends_listPush (value : Value) (side : Deque.End) :
    Ends table (Deque.push key value side) fun _ after => Evolves key steps expireAt after := by
  refine h.ends_listed fun handle items pushes hstored hcount hnear hpushes => ?_
  refine (Deque.ends_push hstored value side).conseq ?_
  rintro (e | length) after hafter
  · rcases hafter with ⟨rfl, _⟩
    exact h.same
  · rcases hafter with ⟨hroom, _, item, _, hstored'⟩
    refine (Holds.deque hstored' ?_ (hnear.grown hroom) (Nat.succ_lt_succ hpushes)).evolves
    rw [Deque.End.length_add]
    omega

/-- Popping an item at either end of a list, of which less than all indices were used.
-/
theorem ends_listPop (side : Deque.End) :
    Ends table (Deque.pop key side) fun _ after => Evolves key steps expireAt after := by
  refine h.ends_listed fun handle items pushes hstored hcount hnear hpushes => ?_
  refine (Deque.ends_pop hstored side).conseq ?_
  intro outcome after hafter
  cases hremove : side.remove? items with
  | none =>
      rw [hremove] at hafter
      rcases hafter with ⟨_, rfl⟩
      exact h.same
  | some removed =>
      rcases removed with ⟨item, rest⟩
      rw [hremove] at hafter
      rcases hafter with ⟨_, hafter⟩
      cases outcome with
      | error e =>
          rw [hafter]
          exact h.same
      | ok value =>
          have hrest := Deque.End.length_of_remove? hremove
          have hdescribes := hstored.describes
          rw [hrest] at hdescribes
          exact (Holds.deque hafter (by omega) (hnear.shrunk hdescribes side)
            (Nat.lt_succ_of_lt hpushes)).evolves

/-- Replacing an item of a list. -/
theorem ends_listSet (position : Int64) (value : Value) :
    Ends table (Deque.set key position value) fun _ after => Evolves key steps expireAt after := by
  refine h.ends_listed fun handle items pushes hstored hcount hnear hpushes => ?_
  refine (Deque.ends_set hstored position value).conseq ?_
  intro outcome after hafter
  split at hafter
  · rcases hafter with ⟨_, rfl⟩
    exact h.same
  · split at hafter
    · rcases hafter with ⟨_, rfl⟩
      exact h.same
    · refine (Holds.deque hafter.2 ?_ hnear (Nat.lt_succ_of_lt hpushes)).evolves
      rw [List.length_set]
      exact hcount

include hsteps in
/-- Trimming a list: what is left lies where it was. -/
theorem ends_listTrim (start stop : Int64) :
    Ends table (Deque.trim key start stop) fun _ after => Evolves key steps expireAt after := by
  refine h.ends_listed fun handle items pushes hstored hcount hnear hpushes => ?_
  refine (Deque.ends_trim hstored (hnear.tail_lt (by omega)) start stop).conseq ?_
  rintro outcome after ⟨_, next, hwithin, hstored'⟩
  have hpart := Deque.length_part_le items (Deque.span? start.toInt stop.toInt items.length)
  exact (Holds.deque hstored' (by omega) (hwithin.near hnear)
    (Nat.lt_succ_of_lt hpushes)).evolves

end Lists

/-! ## Any value -/

section Any

variable (h : Holds table key steps expireAt)

include h

/-- New metadata is written where nothing was. -/
theorem ends_createCounted {marker : Key.Marker} {metadata : UInt64 → Value}
    (hcounts : ∀ bytes, Frame.encode ⟨metadata 0, none⟩ = .ok bytes → Counts marker metadata) :
    Ends table (create key (metadata 0)) fun _ after => Evolves key steps expireAt after := by
  refine (ends_create table key (metadata 0)).conseq ?_
  rintro (e | _) after hafter
  · rw [hafter]
    exact h.same
  · rcases hafter with ⟨_, hget, bytes, hencode, rfl⟩
    exact ⟨none, Or.inr rfl,
      insert_new (h.vacant_of_none hget).1 (hcounts bytes hencode) hencode _⟩

/-- Creating a filter. -/
theorem ends_bloomCreate (slots : Option UInt8) (salt : String) :
    Ends table (Membership.create key slots salt) fun _ after =>
      Evolves key steps expireAt after := by
  refine .guard (fun _ => h.same) fun _ => ?_
  refine @ends_createCounted table key steps expireAt h .bloom
    (fun count => .bloom ⟨slots.getD Membership.defaultSlots, salt, count⟩) fun bytes hencode => ?_
  -- A salt that was written fits its length field.
  rcases Frame.encode_eq_ok_iff.mp hencode with ⟨body, _, hbody, _⟩
  rcases bind_eq_ok_iff.mp hbody with ⟨field, hfield, _⟩
  unfold Frame.textField Frame.prefixedField at hfield
  split at hfield
  · rename_i hsalt
    exact .bloom hsalt
  · cases hfield

/-- Creating a list. -/
theorem ends_listCreate :
    Ends table (Deque.create key) fun _ after => Evolves key steps expireAt after := by
  refine (ends_create table key (.list .empty)).conseq ?_
  rintro (e | _) after hafter
  · rw [hafter]
    exact h.same
  · rcases hafter with ⟨_, hget, bytes, hencode, rfl⟩
    refine ⟨none, Or.inr rfl, ?_⟩
    exact .deque (Deque.stored_empty (h.vacant_of_none hget).1 hencode) (by simp)
      (Deque.near_empty 0) (Nat.zero_lt_succ steps)

/-- Deleting a structure of a kind. -/
theorem ends_deleteAs (kind : Kind) :
    Ends table (deleteAs key kind) fun _ after => Evolves key steps expireAt after := by
  refine .bind (ends_readAs table _ kind) ?_ ?_
  · rintro e between ⟨rfl, _⟩
    exact h.same
  · rintro frame between ⟨rfl, hfound⟩
    refine (h.ends_purge (hfound _ rfl).1).conseq ?_
    rintro outcome after ⟨_, hvacant⟩
    exact cleared hvacant

/-- Deleting whatever is there. -/
theorem ends_delete :
    Ends table (Store.delete key) fun _ after => Evolves key steps expireAt after := by
  refine .bind (ends_readExisting table _) ?_ ?_
  · rintro e between ⟨rfl, _⟩
    exact h.same
  · rintro frame between ⟨rfl, hfound⟩
    refine (h.ends_purge (hfound _ rfl)).conseq ?_
    rintro outcome after ⟨_, hvacant⟩
    exact cleared hvacant

/-- A value without expiry is written where no items lie, or nothing is. -/
theorem ends_writeScalar {value : Value} (hscalar : value.kind.isStructure = false)
    (hbare : ∀ marker, table.countUnder (Key.itemStem key marker) = 0) :
    Ends table (write (Key.ofText key) value none) fun _ after =>
      Evolves key steps expireAt after := by
  refine (ends_write table _ value none).conseq ?_
  rintro (e | _) after hafter
  · rw [hafter]
    exact h.same
  · rcases hafter with ⟨bytes, hencode, rfl⟩
    exact ⟨none, Or.inr rfl,
      insert_scalar hbare hencode hscalar (fun hexpireAt => absurd rfl hexpireAt) _⟩

/-- Setting a value, which replaces a plain one only. -/
theorem ends_set (value : Value) :
    Ends table (Store.set key value) fun _ after => Evolves key steps expireAt after := by
  refine .guard (fun _ => h.same) fun hscalar => ?_
  have hscalar : value.kind.isStructure = false := by simpa using hscalar
  refine .bind_readOnly (confined_requireUnreserved key) (fun _ => h.same) fun _ => ?_
  refine .bind_run (run_get table _) ?_
  cases hget : table.get? (Key.ofText key) with
  | none =>
      apply h.ends_writeScalar hscalar
      exact ((Table.vacant_iff table key).mp (h.vacant_of_none hget).1).2
  | some bytes =>
      cases hpeek : Frame.peekKind bytes with
      | error fault => exact .bind_error (run_lift_error hpeek _) h.same
      | ok found =>
          refine .bind_run (run_lift_ok hpeek _) (.guard (fun _ => h.same) fun hfound => ?_)
          refine h.ends_writeScalar hscalar (h.bare fun other kind hother hkind => ?_)
          rw [hget] at hother
          cases hother
          rw [hpeek] at hkind
          cases hkind
          simpa using hfound

/-- A value that is no structure is replaced by another one; the expiry stays. -/
theorem ends_update {next : Option Value → Except StoreError (Value × α)}
    (hnext : ∀ old value answer, next old = .ok (value, answer) →
      value.kind.isStructure = false ∧ value.Storable ∧
        ∀ v, old = some v → v.kind.isStructure = false) :
    Ends table (Store.update key next) fun _ after => Evolves key steps expireAt after := by
  refine .bind (ends_read table _) ?_ ?_
  · rintro e between ⟨rfl, _⟩
    exact h.same
  · rintro found between ⟨rfl, hfound⟩
    split
    · exact .throw h.same
    · rename_i value answer hanswer
      rcases hnext _ value answer hanswer with ⟨hscalar, hstorable, hold⟩
      have hbare : (∀ marker, between.countUnder (Key.itemStem key marker) = 0) ∧
          found.bind (·.expireAt) = expireAt := by
        cases found with
        | none =>
            rcases h.vacant_of_none hfound with ⟨hvacant, hnone⟩
            exact ⟨((Table.vacant_iff between key).mp hvacant).2, hnone.symm⟩
        | some frame =>
            refine ⟨h.bare fun bytes kind hget hkind => ?_, (h.expireAt_eq hfound).symm⟩
            rcases hfound with ⟨other, hget', hdecode⟩
            rw [hget] at hget'
            cases hget'
            rw [Frame.peekKind_of_decode hdecode] at hkind
            cases hkind
            exact hold frame.value rfl
      rcases hbare with ⟨hbare, hexpireAt⟩
      have hstored : Frame.asStored expireAt = expireAt := by
        cases found with
        | none => rw [(h.vacant_of_none hfound).2, Frame.asStored_none]
        | some frame => rw [h.expireAt_eq hfound, hfound.asStored_expireAt]
      rw [hexpireAt]
      refine .bind (ends_write between _ value expireAt) ?_ ?_
      · rintro e after rfl
        exact h.same
      · rintro _ after ⟨bytes, hencode, rfl⟩
        have hwritten := @insert_scalar between key value expireAt bytes hbare hencode hscalar
          (fun _ => hstorable) (steps + 1)
        rw [hstored] at hwritten
        exact .pure hwritten.evolves

/-- Setting a bit of a bitmap. -/
theorem ends_setBit (offset : UInt64) (on : Bool) :
    Ends table (Bitmap.setBit key offset on) fun _ after => Evolves key steps expireAt after := by
  refine .guard (fun _ => h.same) fun _ => h.ends_update fun old value answer hanswer => ?_
  split at hanswer <;> cases hanswer
  · exact ⟨rfl, trivial, fun _ h => by cases h⟩
  · exact ⟨rfl, trivial, fun _ h => by cases h; rfl⟩

/-- Counting an integer up or down. -/
theorem ends_increase (amount : Int64) :
    Ends table (Store.increase key amount) fun _ after => Evolves key steps expireAt after := by
  refine h.ends_update fun old value answer hanswer => ?_
  split at hanswer
  · cases hanswer
    exact ⟨rfl, trivial, fun _ h => by cases h⟩
  · rename_i i
    cases hsum : checkedAdd i amount with
    | error e =>
        rw [hsum] at hanswer
        cases hanswer
    | ok sum =>
        rw [hsum] at hanswer
        cases hanswer
        exact ⟨rfl, trivial, fun _ h => by cases h; rfl⟩
  · cases hanswer

/-- Adding to a floating-point number. -/
theorem ends_increaseFloat (amount : Binary64) :
    Ends table (Store.increaseFloat key amount) fun _ after =>
      Evolves key steps expireAt after := by
  refine h.ends_update fun old value answer hanswer => ?_
  split at hanswer
  · cases hanswer
    exact ⟨rfl, trivial, fun _ h => by cases h⟩
  · dsimp only at hanswer
    split at hanswer <;> cases hanswer
    exact ⟨rfl, trivial, fun _ h => by cases h; rfl⟩
  · cases hanswer

/-- Adding to a decimal. -/
theorem ends_increaseDecimal (amount : Decimal) :
    Ends table (Store.increaseDecimal key amount) fun _ after =>
      Evolves key steps expireAt after := by
  refine h.ends_update fun old value answer hanswer => ?_
  split at hanswer
  · cases hanswer
    exact ⟨rfl, trivial, fun _ h => by cases h⟩
  · split at hanswer <;> cases hanswer
    exact ⟨rfl, trivial, fun _ h => by cases h; rfl⟩
  · cases hanswer

/-- Setting an encrypted value. -/
theorem ends_setEncrypted (providers : Providers) (value : Value) (algorithm : String)
    (secret : Bytes) :
    Ends table (Secret.setEncrypted providers key value algorithm secret) fun _ after =>
      Evolves key steps expireAt after := by
  refine .bind_readOnly (Secret.confined_cipher providers algorithm) (fun _ => h.same) fun _ => ?_
  refine .bind_readOnly (confined_lift _) (fun _ => h.same) fun _ => ?_
  exact .bind_readOnly (Secret.confined_guarded _ _) (fun _ => h.same) fun ⟨_, _⟩ => h.ends_set _

/-- Setting a hashed password. -/
theorem ends_setPassword (providers : Providers) (password algorithm : String) (cost : HashCost) :
    Ends table (Secret.setPassword providers key password algorithm cost) fun _ after =>
      Evolves key steps expireAt after := by
  refine .bind_readOnly (Secret.confined_hasher providers algorithm) (fun _ => h.same) fun _ => ?_
  exact .bind_readOnly (Secret.confined_guarded _ _) (fun _ => h.same) fun ⟨_, _⟩ => h.ends_set _

/-- Clearing the expiry keeps the value. -/
theorem ends_clearExpiry :
    Ends table (Expiry.clear key) fun _ after => Evolves key steps expireAt after := by
  refine .bind (ends_readExisting table _) ?_ ?_
  · rintro e between ⟨rfl, _⟩
    exact h.same
  · rintro frame between ⟨rfl, hfound⟩
    have hframe := hfound _ rfl
    by_cases hexpireAt : frame.expireAt.isSome
    · rw [if_pos hexpireAt]
      refine (ends_write between _ frame.value none).conseq ?_
      rintro (e | _) after hafter
      · rw [hafter]
        exact h.same
      · rcases hafter with ⟨bytes, hencode, rfl⟩
        exact ⟨none, Or.inr rfl, h.succ.insert_expiry hframe hencode⟩
    · rw [if_neg hexpireAt]
      exact .pure h.same

/-- An expiry is written into the frame of the key, or nothing is. -/
theorem ends_stamp (instant : Instant) :
    Ends table (Expiry.stamp key instant) fun outcome after =>
      match outcome with
      | .error _ => after = table
      | .ok _ => Holds after key steps (Frame.asStored (some instant)) := by
  refine .bind (ends_readExisting table _) ?_ ?_
  · rintro e between ⟨rfl, _⟩
    exact rfl
  · rintro frame between ⟨rfl, hfound⟩
    refine (ends_write between _ frame.value (some instant)).conseq ?_
    rintro (e | _) after hafter
    · exact hafter
    · rcases hafter with ⟨bytes, hencode, rfl⟩
      exact h.insert_expiry (hfound _ rfl) hencode

/-- A repair of a key in order changes nothing. -/
theorem ends_repair (hsteps : steps + 1 < 9223372036854775808) :
    Ends table (Repair.repair key) fun _ after => after = table := by
  rcases ends_readExisting table (Key.ofText key) with ⟨outcome, after, hrun, rfl, hfound⟩
  cases outcome with
  | error e => exact .bind_error hrun rfl
  | ok frame =>
      rcases h.run_repair (by omega) (hfound _ rfl) with ⟨report, hrepair, _⟩
      exact .of_run hrepair rfl

end Any

/-! ## Operations -/

open Operation in
/-- Every operation on a key but those that set an expiry keeps what the key
holds consistent. -/
theorem ends_perform (h : Holds table key steps expireAt)
    (hsteps : steps + 1 < 9223372036854775808) (env : Environment) {op : Operation}
    (hkey : op.key? = some key) (hschedules : op.schedules = false) :
    Ends table (op.perform env) fun _ after => Evolves key steps expireAt after := by
  refine (Decidable.em (op.reads = true)).elim
    (fun hreads => .of_readOnly (readOnly_perform env hreads) fun _ => h.same) fun hreads => ?_
  cases op <;> cases hkey <;> cases hschedules <;> try exact absurd rfl hreads
  case set value => exact ends_silent (h.ends_set value)
  case delete => exact ends_silent h.ends_delete
  case increase amount => exact .map _ (h.ends_increase amount)
  case increaseFloat amount => exact .map _ (h.ends_increaseFloat amount)
  case increaseDecimal amount => exact .map _ (h.ends_increaseDecimal amount)
  case setBit offset on => exact .map _ (h.ends_setBit offset on)
  case clearExpiry => exact ends_silent h.ends_clearExpiry
  case repair =>
      refine .map _ ((h.ends_repair hsteps).conseq ?_)
      rintro outcome after rfl
      exact h.same
  case listCreate => exact ends_silent h.ends_listCreate
  case listPush side value => exact .map _ (h.ends_listPush value side)
  case listPop side => exact .map _ (h.ends_listPop side)
  case listSet position value => exact ends_silent (h.ends_listSet position value)
  case listTrim start stop => exact ends_silent (h.ends_listTrim hsteps start stop)
  case listDelete => exact ends_silent (h.ends_deleteAs .list)
  case mapCreate => exact ends_silent (h.ends_createCounted fun _ _ => .counted .map)
  case mapSet field value => exact .map _ (h.ends_mapSet hsteps field value)
  case mapRemove field => exact .map _ (h.ends_mapRemove field)
  case mapDelete => exact ends_silent (h.ends_deleteAs .map)
  case setCreate => exact ends_silent (h.ends_createCounted fun _ _ => .counted .set)
  case setAdd member => exact .map _ (h.ends_setAdd hsteps member)
  case setRemove member => exact .map _ (h.ends_setRemove member)
  case setDelete => exact ends_silent (h.ends_deleteAs .set)
  case bloomCreate slots salt => exact ends_silent (h.ends_bloomCreate slots salt)
  case bloomAdd item => exact .map _ (h.ends_bloomAdd hsteps item)
  case bloomClear => exact ends_silent h.ends_bloomClear
  case bloomDelete => exact ends_silent (h.ends_deleteAs .bloom)
  case seriesCreate => exact ends_silent (h.ends_createCounted fun _ _ => .counted .series)
  case seriesAdd instant value => exact .map _ (h.ends_seriesAdd hsteps instant value)
  case seriesRemove instant => exact .map _ (h.ends_seriesRemove instant)
  case seriesDelete => exact ends_silent (h.ends_deleteAs .series)
  case setEncrypted value algorithm secret =>
      exact ends_silent (h.ends_setEncrypted env.providers value algorithm secret)
  case setPassword password algorithm cost =>
      exact ends_silent (h.ends_setPassword env.providers password algorithm cost)

end Holds

/-! ## Runs -/

namespace Session

/-- The operation of a step that is one. -/
def Step.operation? : Step → Option Operation
  | .operation op => some op
  | .clockSet _ | .clockAdvance _ => none

/-- The operations among the steps of a session. -/
def operations (steps : List Step) : List Operation :=
  steps.filterMap Step.operation?

/-- An operation in the middle of a run is one of its operations. -/
theorem mem_operations (front : List Step) (op : Operation) (back : List Step) :
    op ∈ operations (front ++ .operation op :: back) := by
  rw [operations, List.filterMap_append]
  exact List.mem_append_right _ List.mem_cons_self

/-- What every operation keeps holds after every run, however the clock moves.
The invariant may count the operations. -/
theorem run_invariant {inv : Nat → Table → Prop} {allowed : Operation → Prop} {limit count : Nat}
    {session : Session} {table : Table}
    (hperform : ∀ {op : Operation} {count : Nat} {table : Table} (clock : Clock), allowed op →
      inv count table → count + 1 < limit →
      Ends table (op.perform ⟨clock.now, session.width, session.providers⟩) fun _ after =>
        inv (count + 1) after)
    (steps : List Step) (hengine : session.engine = .ofTable table) (h : inv count table)
    (hallowed : ∀ op ∈ operations steps, allowed op)
    (hcount : count + (operations steps).length < limit) :
    ∃ after, (session.run steps).2.engine = .ofTable after ∧
      inv (count + (operations steps).length) after := by
  induction steps generalizing session table count with
  | nil => exact ⟨table, hengine, h⟩
  | cons step steps ih =>
      cases step with
      | operation op =>
          have hoperations : operations (.operation op :: steps) = op :: operations steps := rfl
          rw [hoperations] at hallowed hcount ⊢
          rcases List.forall_mem_cons.mp hallowed with ⟨hop, hrest⟩
          rw [List.length_cons] at hcount
          rcases hperform session.clock hop h (by omega) with ⟨outcome, after, hrun, hafter⟩
          have hstep : session.perform op = (outcome, { session with engine := .ofTable after }) := by
            rw [Session.perform, hengine]
            exact congrArg (fun result => (result.1, { session with engine := result.2 })) hrun
          have hend := @ih (count + 1) { session with engine := .ofTable after } after hperform rfl
            hafter hrest (by omega)
          have hlength : count + (op :: operations steps).length
              = count + 1 + (operations steps).length := by
            rw [List.length_cons]
            omega
          rw [hlength]
          simp only [Session.run, Session.step, hstep]
          exact hend
      | clockSet instant =>
          exact @ih count { session with clock := .starting instant } table hperform hengine h
            hallowed hcount
      | clockAdvance span =>
          exact @ih count { session with clock := session.clock.advance span } table hperform
            hengine h hallowed hcount

/-- A key that only its own operations work on is consistent after every run
from an empty store. -/
theorem run_holds (session : Session) (hstart : session.engine = .ofTable .empty) (key : String)
    (steps : List Step)
    (hops : ∀ op ∈ operations steps, op.key? = some key ∧ op.schedules = false)
    (hcount : (operations steps).length < 9223372036854775808) :
    ∃ after, (session.run steps).2.engine = .ofTable after ∧
      ∃ expireAt, Holds after key (operations steps).length expireAt := by
  have hrun := @run_invariant (fun count table => ∃ expireAt, Holds table key count expireAt)
    (fun op => op.key? = some key ∧ op.schedules = false) 9223372036854775808 0 session .empty
    ?_ steps hstart ⟨none, .of_empty key 0⟩ hops (by omega)
  · simpa using hrun
  · rintro op count table clock ⟨hkey, hschedules⟩ ⟨expireAt, h⟩ hlimit
    refine (h.ends_perform hlimit _ hkey hschedules).conseq ?_
    rintro outcome after ⟨next, _, hnext⟩
    exact ⟨next, hnext⟩

end Session
end StructuredStore
