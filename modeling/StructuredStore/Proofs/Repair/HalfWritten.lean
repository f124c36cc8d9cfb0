import StructuredStore.Proofs.Engine.Interruption
import StructuredStore.Proofs.Repair.Restoration

/-!
# Repairing what is half written

Between an item and the metadata that counts it, a structure is half written:
its items are those of the next state and its metadata is that of the last one.
Repair writes the very metadata that is missing.  A structure whose metadata
agrees with its items is sound; it is left as it is.

Main results:

- `Store.Tallied.sound`, `Deque.Stored.sound`: repair leaves such structures.
- `run_repair_recounted`, `run_repair_spread`: repair completes a structure that
  is half written.
-/

namespace StructuredStore

open Engine Store Deque

namespace Repair

variable {table : Table} {key : String} {expireAt : Option Instant} {contents : Bytes}

/-! ## Sound structures -/

/-- Whether a structure of the kind, with the expiry, lies at the key and repair
has nothing to do. -/
structure Sound (key : String) (kind : Kind) (expireAt : Option Instant) (table : Table) :
    Prop where
  repairs : ∃ report, (repair key).run (ofTable table) = (.ok report, ofTable table)
  frame : ∃ value : Value, table.HasFrame (Key.ofText key) ⟨value, expireAt⟩ ∧ value.kind = kind

/-- Whether repair ends on one of the two tables. -/
def Recovers (key : String) (before after crashed : Table) : Prop :=
  ∃ report repaired, (repair key).run (ofTable crashed) = (.ok report, ofTable repaired) ∧
    (repaired = before ∨ repaired = after)

namespace Sound

variable {kind : Kind}

theorem recovers_before (h : Sound key kind expireAt table) (after : Table) :
    Recovers key table after table := by
  obtain ⟨report, hrun⟩ := h.repairs
  exact ⟨report, table, hrun, Or.inl rfl⟩

theorem recovers_after (h : Sound key kind expireAt table) (before : Table) :
    Recovers key before table table := by
  obtain ⟨report, hrun⟩ := h.repairs
  exact ⟨report, table, hrun, Or.inr rfl⟩

/-- Any frame at the key is of the kind and has the expiry. -/
theorem kind_eq (h : Sound key kind expireAt table) {frame : Frame}
    (hframe : table.HasFrame (Key.ofText key) frame) :
    frame.value.kind = kind ∧ frame.expireAt = expireAt := by
  obtain ⟨value, hvalue, hkind⟩ := h.frame
  cases hframe.unique hvalue
  exact ⟨hkind, rfl⟩

end Sound

/-! ## Structures that count their items -/

/-- A structure that counts its items is repaired by counting them. -/
theorem run_repair_eq_recount {marker : Key.Marker} {metadata : UInt64 → Value} {count : UInt64}
    (hcounts : Counts marker metadata)
    (hframe : table.HasFrame (Key.ofText key) ⟨metadata count, expireAt⟩) :
    (repair key).run (ofTable table) =
      (recount key marker count metadata expireAt).run (ofTable table) := by
  rw [repair, run_bind_ok (run_readExisting hframe)]
  cases hcounts with
  | counted counted => cases counted <;> rfl
  | bloom _ => rfl

/-- Repair writes the number of items that lie there, if it was another one. -/
theorem run_repair_recounted {marker : Key.Marker} {metadata : UInt64 → Value}
    {before next : UInt64} (hcounts : Counts marker metadata)
    (hframe : table.HasFrame (Key.ofText key) ⟨metadata before, expireAt⟩)
    (hrows : table.countUnder (Key.itemStem key marker) = next.toNat)
    (hencode : Frame.encode ⟨metadata next, expireAt⟩ = .ok contents) (hne : before ≠ next) :
    ∃ report, (repair key).run (ofTable table) =
      (.ok report, ofTable (table.insert (Key.ofText key) contents)) := by
  rw [run_repair_eq_recount hcounts hframe, recount,
    run_bind_ok (run_countItems table key marker), hrows, UInt64.ofNat_toNat]
  simp only [ne_eq, hne, not_false_eq_true, if_true]
  rw [run_bind_ok (run_write hencode)]
  exact ⟨_, rfl⟩

/-! ## Lists -/

/-- Items at consecutive indices have no holes to close. -/
theorem run_closeHoles_consecutive {next : ListHandle} {items : List Bytes}
    (hspread : Spread table key next.head.toInt items)
    (hdescribes : Describes next items.length) :
    (closeHoles key next.head (consecutive next.head items.length)).run (ofTable table) =
      (.ok false, ofTable table) := by
  have hroom := hdescribes.room
  have hclose := @run_closeHoles table key next.head next.head 0 _ items
    (hspread.rowsUnder_eq hroom) (by simp) (ascending_consecutive hroom) (by simp)
    fun index hindex => by simpa using (mem_consecutive hroom hindex).1
  obtain ⟨moved, after, hrun, _, _, hkept, hmoved⟩ := hclose
  cases moved with
  | false => rw [hrun, hkept rfl]
  | true => exact absurd (by simp) (hmoved rfl)

/-- Repair writes the metadata of the items that lie there, if it was another
one.  An index must be left behind them. -/
theorem run_repair_spread {handle next : ListHandle} {items : List Bytes}
    (hframe : table.HasFrame (Key.ofText key) ⟨.list handle, expireAt⟩)
    (hspread : Spread table key next.head.toInt items)
    (hdescribes : Describes next items.length) (htail : next.tail.toInt < 9223372036854775807)
    (hencode : Frame.encode ⟨.list next, expireAt⟩ = .ok contents) :
    ∃ report, (repair key).run (ofTable table) =
      (.ok report, ofTable
        (if next = handle then table else table.insert (Key.ofText key) contents)) := by
  have hcatchUp : ∀ report : Report,
      (do
        if next ≠ handle then Store.write (Key.ofText key) (.list next) expireAt
        return report : StoreM Report).run (ofTable table) =
      (.ok report, ofTable
        (if next = handle then table else table.insert (Key.ofText key) contents)) := by
    intro report
    by_cases hsame : next = handle
    · simp only [hsame, ne_eq, not_true_eq_false, if_false, if_true]
      rfl
    · simp only [hsame, ne_eq, not_false_eq_true, if_true, if_false]
      rw [run_bind_ok (run_write hencode)]
      rfl
  have hread : (lift (indices key (table.rowsUnder (Key.itemStem key .list)))).run
      (ofTable table) = (.ok (consecutive next.head items.length), ofTable table) := by
    apply run_lift_ok
    rw [hspread.rowsUnder_eq hdescribes.room]
    exact indices_rows key (length_consecutive _ _)
  have hclose := run_closeHoles_consecutive hspread hdescribes
  have hshort : items.length < 9223372036854775808 := by
    have hlength := hdescribes.length
    have hhigh : next.length.toInt ≤ 9223372036854775807 := next.length.toInt_le
    omega
  have hsettled := Holds.settledHandle_of_describes hdescribes hshort
  rw [repair, run_bind_ok (run_readExisting hframe)]
  dsimp only
  rw [repairList, run_bind_ok (run_scan table _), run_bind_ok hread]
  cases items with
  | nil =>
      rw [← hsettled]
      rw [← hsettled] at hcatchUp
      exact ⟨_, hcatchUp _⟩
  | cons item items =>
      rw [List.length_cons, consecutive] at hclose hsettled ⊢
      have hextensible := Holds.extensible_of_describes hdescribes htail
      have hhandle := handleFrom_eq hextensible (by rwa [← consecutive, length_consecutive])
      rw [hsettled] at hhandle
      dsimp only
      rw [run_bind_ok hclose, hhandle, pure_bind]
      exact ⟨_, hcatchUp _⟩

end Repair

/-! ## Sound structures -/

open Repair

variable {table : Table} {key : String} {expireAt : Option Instant}

/-- All metadata of one kind of structure is of one kind. -/
theorem Store.Counts.kind_eq {marker : Key.Marker} {metadata : UInt64 → Value}
    (h : Counts marker metadata) (a b : UInt64) : (metadata a).kind = (metadata b).kind := by
  cases h with
  | counted counted => cases counted <;> rfl
  | bloom _ => rfl

/-- A structure that counts its items is sound. -/
theorem Store.Tallied.sound {marker : Key.Marker} {metadata : UInt64 → Value} {count : UInt64}
    (h : Tallied table key marker metadata count expireAt) :
    Sound key (metadata count).kind expireAt table := by
  constructor
  · have hrun := @run_recount_same table key expireAt marker count metadata h.rows.symm
    exact ⟨_, (run_repair_eq_recount h.counts h.frame).trans hrun⟩
  · exact ⟨_, h.frame, rfl⟩

/-- A stored list is sound, if an index is left behind its items. -/
theorem Deque.Stored.sound {handle : ListHandle} {items : List Bytes}
    (h : Stored table key handle expireAt items) (htail : handle.tail.toInt < 9223372036854775807) :
    Sound key .list expireAt table := by
  obtain ⟨contents, hencode⟩ := h.exists_encode handle
  obtain ⟨report, hrun⟩ := run_repair_spread h.frame h.spread h.describes htail hencode
  rw [if_pos rfl] at hrun
  exact ⟨⟨report, hrun⟩, _, h.frame, rfl⟩

/-- What a key holds is sound, if it is a structure. -/
theorem Holds.sound {steps : Nat} {frame : Frame} (h : Holds table key steps expireAt)
    (hsteps : steps < 9223372036854775808) (hframe : table.HasFrame (Key.ofText key) frame)
    (hstructure : frame.value.kind.isStructure = true) :
    Sound key frame.value.kind frame.expireAt table := by
  cases h with
  | vacant h _ => exact absurd (h _ (.self key)) hframe.get?_ne_none
  | scalar hget hkind hscalar =>
      obtain ⟨bytes, hget', hdecode⟩ := hframe
      rw [hget] at hget'
      cases hget'
      rw [Frame.peekKind_of_decode hdecode] at hkind
      cases hkind
      rw [hstructure] at hscalar
      cases hscalar
  | deque h _ hnear hpushes =>
      cases h.frame.unique hframe
      exact h.sound (hnear.tail_lt (by omega))
  | tallied h =>
      cases h.frame.unique hframe
      exact h.sound

end StructuredStore
