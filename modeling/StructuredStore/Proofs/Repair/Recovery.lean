import StructuredStore.Proofs.Repair.HalfWritten
import StructuredStore.Proofs.Store.Interruption
import StructuredStore.Proofs.Store.Preservation

/-!
# Recovery from failing calls

An operation that adds, replaces or removes one item of a structure writes the
item first and the metadata last.  Broken off by a failing call it leaves the
structure as it was, as it would have been, or half written, and repair turns
each of them into one of the first two.

Main results:

- `Mends.bind_steady`, `Mends.of_halves`: what an operation may read first, and
  its two writes.
- `Store.Tallied.mends_putItem`, `Deque.Stored.mends_push` and their like: the
  writes of each operation.
-/

namespace StructuredStore

open Engine Store

namespace Repair

variable {table after : Table} {key : String} {kind : Kind} {expireAt : Option Instant}
  {α β : Type}

/-! ## Computations that repair completes or undoes -/

/-- Whether repair turns every table at which the computation may be broken off
into the one it started on or the one it ends on without failures, which is
sound. -/
def Mends (key : String) (kind : Kind) (expireAt : Option Instant) (table : Table)
    (action : StoreM α) : Prop :=
  ∃ outcome after, Runs (Recovers key table after) table action outcome after ∧
    Sound key kind expireAt after

namespace Mends

/-- A computation that is broken off at its start or at its end only. -/
theorem of_runs {action : StoreM α} {outcome : Except StoreError α}
    (hsound : Sound key kind expireAt table) (hafter : Sound key kind expireAt after)
    (h : Runs (fun t => t = table ∨ t = after) table action outcome after) :
    Mends key kind expireAt table action := by
  refine ⟨outcome, after, h.mono ?_, hafter⟩
  intro crashed hcrashed
  obtain rfl | rfl := hcrashed
  · exact hsound.recovers_before after
  · exact hafter.recovers_after table

/-- A computation in two halves, if repair also undoes the first half or
completes it. -/
theorem of_halves {first : StoreM Unit} {second : StoreM α} {half : Table}
    {outcome : Except StoreError α} (hsound : Sound key kind expireAt table)
    (hafter : Sound key kind expireAt after) (hhalf : Recovers key table after half)
    (hfirst : Runs (fun t => t = table ∨ t = half) table first (.ok ()) half)
    (hsecond : Runs (fun t => t = half ∨ t = after) half second outcome after) :
    Mends key kind expireAt table (do first; second) := by
  refine ⟨outcome, after, (hfirst.mono ?_).bind (hsecond.mono ?_), hafter⟩
  · intro crashed hcrashed
    obtain rfl | rfl := hcrashed
    · exact hsound.recovers_before after
    · exact hhalf
  · intro crashed hcrashed
    obtain rfl | rfl := hcrashed
    · exact hhalf
    · exact hafter.recovers_after table

/-- What is read first may fail, or answers what it answers without failures. -/
theorem bind_steady {first : StoreM α} {next : α → StoreM β} (hfirst : Steady first)
    (hsound : Sound key kind expireAt table)
    (hnext : ∀ a, first.run (ofTable table) = (.ok a, ofTable table) →
      Mends key kind expireAt table (next a)) :
    Mends key kind expireAt table (first >>= next) := by
  obtain ⟨outcome, hruns, _⟩ := hfirst table
  cases outcome with
  | error e => exact .of_runs hsound hsound (hruns.bind_error.mono fun _ => Or.inl)
  | ok a =>
      obtain ⟨outcome, after, hrest, hafter⟩ := hnext a hruns.run
      refine ⟨outcome, after, .bind (hruns.mono ?_) hrest, hafter⟩
      intro crashed hcrashed
      rw [hcrashed]
      exact hsound.recovers_before after

/-- What is read first and answered as known. -/
theorem bind_run {first : StoreM α} {next : α → StoreM β} {a : α} (hfirst : Steady first)
    (hrun : first.run (ofTable table) = (.ok a, ofTable table))
    (hsound : Sound key kind expireAt table) (hnext : Mends key kind expireAt table (next a)) :
    Mends key kind expireAt table (first >>= next) := by
  apply bind_steady hfirst hsound
  intro found hfound
  rw [hrun] at hfound
  cases hfound
  exact hnext

/-- What is read first and refused. -/
theorem bind_refused {first : StoreM α} {next : α → StoreM β} {e : StoreError}
    (hfirst : Steady first) (hrun : first.run (ofTable table) = (.error e, ofTable table))
    (hsound : Sound key kind expireAt table) :
    Mends key kind expireAt table (first >>= next) := by
  apply bind_steady hfirst hsound
  intro found hfound
  rw [hrun] at hfound
  cases hfound

/-- A check that may end the computation. -/
protected theorem guard {c : Prop} [Decidable c] {e : StoreError} {next : α → StoreM β}
    {go : StoreM β} (hsound : Sound key kind expireAt table)
    (h : ¬ c → Mends key kind expireAt table go) :
    Mends key kind expireAt table (if c then throw e >>= next else go) := by
  by_cases hc : c
  · rw [if_pos hc]
    exact ⟨_, table, .bind_error (.throw e), hsound⟩
  · rw [if_neg hc]
    exact h hc

protected theorem map {action : StoreM α} (f : α → β) (h : Mends key kind expireAt table action) :
    Mends key kind expireAt table (f <$> action) := by
  obtain ⟨outcome, after, hruns, hafter⟩ := h
  exact ⟨_, after, hruns.map f, hafter⟩

protected theorem silent {action : StoreM Unit} (h : Mends key kind expireAt table action) :
    Mends key kind expireAt table (Operation.silent action) := by
  obtain ⟨outcome, after, hruns, hafter⟩ := h
  cases outcome with
  | error e => exact ⟨_, after, hruns.bind_error, hafter⟩
  | ok _ => exact ⟨_, after, hruns.bind (.pure _), hafter⟩

end Mends
end Repair

/-! ## Items that are counted -/

namespace Store.Tallied

open Repair

variable {table middle : Table} {key : String} {marker : Key.Marker}
  {metadata : UInt64 → Value} {count next : UInt64} {expireAt : Option Instant}
  {physical contents : Bytes}

/-- Between an item and its count repair writes the count. -/
theorem recovers_half (h : Tallied table key marker metadata count expireAt)
    (hself : middle.get? (Key.ofText key) = table.get? (Key.ofText key))
    (hrows : middle.countUnder (Key.itemStem key marker) = next.toNat) (hne : count ≠ next)
    (hencode : Frame.encode ⟨metadata next, expireAt⟩ = .ok contents) :
    Recovers key table (middle.insert (Key.ofText key) contents) middle := by
  obtain ⟨report, hrun⟩ :=
    run_repair_recounted h.counts (h.frame.congr hself) hrows hencode hne
  exact ⟨report, _, hrun, Or.inr rfl⟩

/-- A new item and one more in the metadata are written one after the other. -/
theorem mends_addItem (h : Tallied table key marker metadata count expireAt)
    (hphysical : Key.itemStem key marker <+: physical) (hget : table.get? physical = none)
    (hroom : count.toNat < 18446744073709551615) (value : Value) :
    Mends key (metadata count).kind expireAt table
      (do
        write physical value none
        let count ← increment count
        write (Key.ofText key) (metadata count) expireAt
        return count) := by
  cases hitem : Frame.encode ⟨value, none⟩ with
  | error fault => exact ⟨_, table, .bind_error (runs_write_error hitem), h.sound⟩
  | ok item =>
      obtain ⟨contents, hcontents⟩ := h.exists_encode (count + 1)
      have hadded := @add _ _ _ _ _ _ _ _ item h hphysical hget hroom hcontents
      have hrows : (table.insert physical item).countUnder (Key.itemStem key marker)
          = (count + 1).toNat := by
        rw [Table.countUnder_insert table item hphysical, if_pos hget, h.rows,
          toNat_add_one hroom]
      have hne : count ≠ count + 1 := by
        intro heq
        have hnumber := congrArg UInt64.toNat heq
        rw [toNat_add_one hroom] at hnumber
        omega
      have hhalf := h.recovers_half
        (Table.get?_insert_of_ne table item (ne_ofText hphysical)) hrows hne hcontents
      have hend := hadded.sound
      rw [h.counts.kind_eq (count + 1) count] at hend
      apply Mends.of_halves h.sound hend hhalf (runs_write hitem (Or.inl rfl) (Or.inr rfl))
      apply Runs.bind (Steady.runs (steady_increment count) (Or.inl rfl) (run_increment hroom _))
      exact .bind (runs_write hcontents (Or.inl rfl) (Or.inr rfl)) (.pure _)

/-- An item is written, over another one or as a new one. -/
theorem mends_putItem (h : Tallied table key marker metadata count expireAt)
    (hphysical : Key.itemStem key marker <+: physical)
    (hroom : count.toNat < 18446744073709551615) (value : Value) :
    Mends key (metadata count).kind expireAt table
      (do
        let known := (← Engine.get physical).isSome
        write physical value none
        if known then return count
        let count ← increment count
        write (Key.ofText key) (metadata count) expireAt
        return count) := by
  apply Mends.bind_run (.get physical) (run_get table physical) h.sound
  cases hget : table.get? physical with
  | none => exact h.mends_addItem hphysical hget hroom value
  | some old =>
      cases hitem : Frame.encode ⟨value, none⟩ with
      | error fault => exact ⟨_, table, .bind_error (runs_write_error hitem), h.sound⟩
      | ok item =>
          have hsound := (h.overwrite hphysical (by simp [hget]) item).sound
          exact .of_runs h.sound hsound
            (.bind (runs_write hitem (Or.inl rfl) (Or.inr rfl)) (.pure _))

/-- An item is written unless it is there. -/
theorem mends_putNewItem (h : Tallied table key marker metadata count expireAt)
    (hphysical : Key.itemStem key marker <+: physical)
    (hroom : count.toNat < 18446744073709551615) (value : Value) :
    Mends key (metadata count).kind expireAt table
      (do
        if (← Engine.get physical).isSome then return count
        write physical value none
        let count ← increment count
        write (Key.ofText key) (metadata count) expireAt
        return count) := by
  apply Mends.bind_run (.get physical) (run_get table physical) h.sound
  cases hget : table.get? physical with
  | none => exact h.mends_addItem hphysical hget hroom value
  | some old => exact ⟨_, table, .pure count, h.sound⟩

/-- An item is removed if it is there. -/
theorem mends_takeItem (h : Tallied table key marker metadata count expireAt)
    (hphysical : Key.itemStem key marker <+: physical) :
    Mends key (metadata count).kind expireAt table
      (do
        if (← Engine.get physical).isNone then return count
        Engine.delete physical
        write (Key.ofText key) (metadata (decrement count)) expireAt
        return decrement count) := by
  apply Mends.bind_run (.get physical) (run_get table physical) h.sound
  cases hget : table.get? physical with
  | none => exact ⟨_, table, .pure count, h.sound⟩
  | some old =>
      have hthere : table.get? physical ≠ none := by simp [hget]
      obtain ⟨contents, hcontents⟩ := h.exists_encode (decrement count)
      have hremoved := h.remove hphysical hthere hcontents
      have hrows : (table.erase physical).countUnder (Key.itemStem key marker)
          = (decrement count).toNat := by
        rw [Table.countUnder_erase table hphysical, if_neg hthere, h.rows, toNat_decrement]
      have hne : count ≠ decrement count := by
        intro heq
        have hnumber := congrArg UInt64.toNat heq
        have hpos := Table.countUnder_pos hphysical hthere
        rw [toNat_decrement] at hnumber
        rw [h.rows] at hpos
        omega
      have hhalf := h.recovers_half
        (Table.get?_erase_of_ne table (ne_ofText hphysical)) hrows hne hcontents
      have hend := hremoved.sound
      rw [h.counts.kind_eq (decrement count) count] at hend
      apply Mends.of_halves h.sound hend hhalf (.delete (Or.inl rfl) (Or.inr rfl))
      exact .bind (runs_write hcontents (Or.inl rfl) (Or.inr rfl)) (.pure _)

end Store.Tallied

/-! ## Items of lists -/

namespace Deque.Stored

open Deque Repair

variable {table middle : Table} {key : String} {handle next : ListHandle}
  {expireAt : Option Instant} {items rest : List Bytes} {contents : Bytes} {pushes : Nat}

/-- Between an item and the metadata repair writes the metadata. -/
theorem recovers_half (h : Stored table key handle expireAt items)
    (hself : middle.get? (Key.ofText key) = table.get? (Key.ofText key))
    (hspread : Spread middle key next.head.toInt rest) (hdescribes : Describes next rest.length)
    (htail : next.tail.toInt < 9223372036854775807) (hne : next ≠ handle) (hencode : Frame.encode ⟨.list next, expireAt⟩ = .ok contents) :
    Recovers key table (middle.insert (Key.ofText key) contents) middle := by
  obtain ⟨report, hrun⟩ :=
    run_repair_spread (h.frame.congr hself) hspread hdescribes htail hencode
  rw [if_neg hne] at hrun
  exact ⟨report, _, hrun, Or.inr rfl⟩

/-- Metadata that describes another number of items is other metadata. -/
theorem ne_of_describes {a b : Nat} (ha : Describes next a) (hb : Describes handle b)
    (hne : a ≠ b) : next ≠ handle := by
  rintro rfl
  have hlength := ha.length
  rw [hb.length] at hlength
  omega

/-- An item and the metadata are written one after the other. -/
theorem mends_push (h : Stored table key handle expireAt items) (hnear : Near handle pushes)
    (hpushes : pushes < 9223372036854775807) (value : Value) (side : End) :
    Mends key .list expireAt table (Deque.push key value side) := by
  have hsound := h.sound (hnear.tail_lt hpushes.le)
  apply Mends.bind_run (steady_readHandle key) (run_readHandle h.frame) hsound
  by_cases hfull : Full handle side
  · exact .bind_refused (steady_grow handle side) (run_grow_full hfull _) hsound
  · apply Mends.bind_run (steady_grow handle side) (run_grow hfull _) hsound
    cases hitem : Frame.encode ⟨value, none⟩ with
    | error fault => exact ⟨_, table, .bind_error (runs_write_error hitem), hsound⟩
    | ok item =>
        obtain ⟨contents, hcontents⟩ := h.exists_encode (grown handle side)
        have hdescribes := describes_grown h.describes hfull
        have hspread := h.spread.grown h.describes hfull item
        have hpushed := h.pushed hfull item hcontents
        have htail := (hnear.grown hfull).tail_lt (Nat.succ_le_of_lt hpushes)
        have hhalf := h.recovers_half
          (Table.get?_insert_of_ne table item (listItem_ne_ofText key _)) hspread
          (by rw [End.length_add]; exact hdescribes) htail
          (ne_of_describes hdescribes h.describes (by omega)) hcontents
        apply Mends.of_halves hsound (hpushed.sound htail) hhalf
          (runs_write hitem (Or.inl rfl) (Or.inr rfl))
        exact .bind (runs_write hcontents (Or.inl rfl) (Or.inr rfl)) (.pure _)

/-- An item is removed before the metadata is written. -/
theorem mends_pop (h : Stored table key handle expireAt items) (hnear : Near handle pushes)
    (hpushes : pushes < 9223372036854775807) (side : End) :
    Mends key .list expireAt table (Deque.pop key side) := by
  have hsound := h.sound (hnear.tail_lt hpushes.le)
  apply Mends.bind_run (steady_readHandle key) (run_readHandle h.frame) hsound
  apply Mends.guard hsound
  intro hlength
  cases hremove : side.remove? items with
  | none =>
      exfalso
      apply hlength
      rw [h.describes.length_eq_zero_iff, End.eq_nil_of_remove? hremove]
      rfl
  | some removed =>
      obtain ⟨item, rest⟩ := removed
      apply Mends.bind_steady (steady_requireItem key (endIndex handle side)) hsound
      intro value _
      obtain ⟨contents, hcontents⟩ := h.exists_encode (shrunk handle side)
      have hdescribes := h.describes
      rw [End.length_of_remove? hremove] at hdescribes
      have hshrunk : Describes (shrunk handle side) rest.length := describes_shrunk hdescribes
      have htail := (hnear.shrunk hdescribes side).tail_lt hpushes.le
      have hspread := h.spread_erase hremove
      have hpopped := h.popped hremove hcontents
      have hhalf := h.recovers_half
        (Table.get?_erase_of_ne table (listItem_ne_ofText key _)) hspread hshrunk htail
        (ne_of_describes hshrunk hdescribes (by omega)) hcontents
      apply Mends.of_halves hsound (hpopped.sound htail) hhalf (.delete (Or.inl rfl) (Or.inr rfl))
      rw [shrink_eq hdescribes side, pure_bind]
      exact .bind (runs_write hcontents (Or.inl rfl) (Or.inr rfl)) (.pure _)

/-- An item is replaced by one write. -/
theorem mends_set (h : Stored table key handle expireAt items)
    (htail : handle.tail.toInt < 9223372036854775807) (position : Int64) (value : Value) :
    Mends key .list expireAt table (Deque.set key position value) := by
  have hsound := h.sound htail
  apply Mends.bind_run (steady_readHandle key) (run_readHandle h.frame) hsound
  obtain ⟨outcome, hlocate, houtcome⟩ := run_locate h.describes position (ofTable table)
  cases hplace : place? items.length position with
  | none =>
      rw [hplace] at houtcome
      subst houtcome
      exact .bind_refused (steady_locate handle position) hlocate hsound
  | some place =>
      rw [hplace] at houtcome
      obtain ⟨index, rfl, hindex⟩ := houtcome
      apply Mends.bind_run (steady_locate handle position) hlocate hsound
      cases hitem : Frame.encode ⟨value, none⟩ with
      | error fault => exact ⟨_, table, runs_write_error hitem, hsound⟩
      | ok item =>
          have hreplaced := h.replace (lt_of_place? hplace) hindex item
          exact .of_runs hsound (hreplaced.sound htail) (runs_write hitem (Or.inl rfl) (Or.inr rfl))

end Deque.Stored
end StructuredStore
