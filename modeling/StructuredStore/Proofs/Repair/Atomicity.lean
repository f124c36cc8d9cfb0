import StructuredStore.Proofs.Repair.Recovery
import StructuredStore.Proofs.Store.Unreserved

/-!
# Operations on one item are atomic up to repair

Whichever call of an operation on one item fails, with or without effect, repair
ends on the rows that the operation started on or on those that it would have
ended on.

Main results:

- `Holds.mends_perform`: every operation on one item.
- `repair_recovers`: in every state that operations on one key lead to.
-/

namespace StructuredStore

open Engine Store Repair

/-- Whether an operation adds, replaces or removes one item of a structure. -/
def Operation.changesItem : Operation → Bool
  | .listPush _ _ _ | .listPop _ _ | .listSet _ _ _ | .mapSet _ _ _ | .mapRemove _ _
  | .setAdd _ _ | .setRemove _ _ | .bloomAdd _ _ | .seriesAdd _ _ _ | .seriesRemove _ _ => true
  | _ => false

namespace Holds

variable {α : Type} {table : Table} {key : String} {steps : Nat} {kind : Kind}
  {expireAt expireAt' : Option Instant}

/-! ## What operations read first -/

/-- An operation that reads the count of a structure first. -/
theorem mends_counted {counted : Counted} {next : UInt64 × Option Instant → StoreM α}
    (h : Holds table key steps expireAt') (hsound : Sound key kind expireAt table)
    (hnext : ∀ count, Tallied table key counted.marker counted.metadata count expireAt →
      count.toNat ≤ steps →
      Mends key (counted.metadata count).kind expireAt table (next (count, expireAt))) :
    Mends key kind expireAt table (readCount key counted >>= next) := by
  apply Mends.bind_steady (steady_readCount key counted) hsound
  intro ⟨count, _⟩ hfound
  obtain ⟨outcome, after, hrun, _, hframe⟩ := ends_readCount table key counted
  rw [hfound] at hrun
  cases hrun
  obtain ⟨rfl, rfl⟩ := hsound.kind_eq (hframe _ rfl)
  obtain ⟨htallied, hcount⟩ := h.counted (hframe _ rfl)
  exact hnext count htallied hcount

/-- An operation that reads the metadata of a filter first. -/
theorem mends_bloom {next : BloomHandle × Option Instant → StoreM α}
    (h : Holds table key steps expireAt') (hsound : Sound key kind expireAt table)
    (hnext : ∀ handle : BloomHandle,
      Tallied table key .bloom (fun count => .bloom { handle with count }) handle.count expireAt →
      handle.count.toNat ≤ steps →
      Mends key .bloom expireAt table (next (handle, expireAt))) :
    Mends key kind expireAt table (Membership.readHandle key >>= next) := by
  apply Mends.bind_steady (Membership.steady_readHandle key) hsound
  intro ⟨handle, _⟩ hfound
  obtain ⟨outcome, after, hrun, _, hframe⟩ := ends_readBloom table key
  rw [hfound] at hrun
  cases hrun
  obtain ⟨rfl, rfl⟩ := hsound.kind_eq (hframe _ rfl)
  obtain ⟨htallied, hcount⟩ := h.bloom (hframe _ rfl)
  exact hnext handle htallied hcount

/-- An operation that reads the metadata of a list first. -/
theorem mends_listed {next : ListHandle × Option Instant → StoreM α}
    (h : Holds table key steps expireAt') (hsound : Sound key kind expireAt table)
    (hnext : ∀ handle items pushes, Deque.Stored table key handle expireAt items →
      Deque.Near handle pushes → pushes < steps → Mends key .list expireAt table (Deque.readHandle key >>= next)) :
    Mends key kind expireAt table (Deque.readHandle key >>= next) := by
  obtain ⟨outcome, after, hrun, rfl, hframe⟩ := Deque.ends_readHandle table key
  cases outcome with
  | error e => exact .bind_refused (Deque.steady_readHandle key) hrun hsound
  | ok found =>
      obtain ⟨rfl, rfl⟩ := hsound.kind_eq (hframe _ rfl)
      obtain ⟨items, pushes, hstored, _, hnear, hpushes⟩ := h.list (hframe _ rfl)
      exact hnext _ items pushes hstored hnear hpushes

/-- An operation that forms the key of a point first. -/
theorem mends_point {instant : Instant} {next : Bytes → StoreM α}
    (hsound : Sound key kind expireAt table)
    (hnext : ∀ selector, Mends key kind expireAt table (next (Key.item key .series selector))) :
    Mends key kind expireAt table (Series.pointKey key instant >>= next) := by
  cases hpoint : Key.instantSelector instant with
  | error fault =>
      rw [Series.pointKey_error key hpoint]
      exact ⟨_, table, .bind_error (.throw _), hsound⟩
  | ok selector =>
      rw [Series.pointKey_ok key hpoint, pure_bind]
      exact hnext selector

/-! ## Operations -/

/-- Repair completes or undoes every operation on one item. -/
theorem mends_perform (h : Holds table key steps expireAt')
    (hsteps : steps < 9223372036854775808) (hsound : Sound key kind expireAt table)
    (env : Environment) {op : Operation} (hkey : op.key? = some key)
    (hchanges : op.changesItem = true) : Mends key kind expireAt table (op.perform env) := by
  cases op <;> cases hkey <;> cases hchanges
  case listPush side value =>
      exact .map _ (h.mends_listed hsound fun _ _ _ hstored hnear _ =>
        hstored.mends_push hnear (by omega) value side)
  case listPop side =>
      exact .map _ (h.mends_listed hsound fun _ _ _ hstored hnear _ =>
        hstored.mends_pop hnear (by omega) side)
  case listSet position value =>
      exact .silent (h.mends_listed hsound fun _ _ _ hstored hnear _ =>
        hstored.mends_set (hnear.tail_lt (by omega)) position value)
  case mapSet field value =>
      exact .map _ (h.mends_counted hsound fun _ htallied hcount =>
        htallied.mends_putItem (List.prefix_append _ _) (by omega) value)
  case mapRemove field =>
      exact .map _ (h.mends_counted hsound fun _ htallied _ =>
        htallied.mends_takeItem (List.prefix_append _ _))
  case setAdd member =>
      exact .map _ (h.mends_counted hsound fun _ htallied hcount =>
        htallied.mends_putNewItem (List.prefix_append _ _) (by omega) .null)
  case setRemove member =>
      exact .map _ (h.mends_counted hsound fun _ htallied _ =>
        htallied.mends_takeItem (List.prefix_append _ _))
  case bloomAdd item =>
      exact .map _ (h.mends_bloom hsound fun _ htallied hcount =>
        htallied.mends_putItem (List.prefix_append _ _) (by omega) _)
  case seriesAdd instant value =>
      exact .map _ (h.mends_counted hsound fun _ htallied hcount =>
        mends_point htallied.sound fun _ =>
          htallied.mends_putItem (List.prefix_append _ _) (by omega) value)
  case seriesRemove instant =>
      exact .map _ (h.mends_counted hsound fun _ htallied _ =>
        mends_point htallied.sound fun _ => htallied.mends_takeItem (List.prefix_append _ _))

end Holds

namespace Repair

/-- In every state that operations on one key lead to, whichever calls of an
operation on one item of its structure fail, repair ends on the rows before the
operation or on those that it would have led to.  Kind and expiry stay. -/
theorem repair_recovers (session : Session) (steps : List Session.Step) (key : String)
    (hstart : session.engine = .ofTable .empty) (hreserved : Key.isReserved key = false)
    (hops : ∀ op ∈ Session.operations steps, op.key? = some key)
    (hcount : (Session.operations steps).length < 2 ^ 63) :
    ∃ table, (session.run steps).2.engine = .ofTable table ∧
      ∀ (frame : Frame) (env : Environment) (op : Operation) (plan : FaultPlan),
        table.HasFrame (Key.ofText key) frame → frame.value.kind.isStructure = true →
        op.key? = some key → op.changesItem = true →
        let crashed := ((op.perform env).run ⟨table, some plan⟩).2.table
        let finished := ((op.perform env).run (.ofTable table)).2.table
        ∃ report repaired, (repair key).run (.ofTable crashed) = (.ok report, .ofTable repaired) ∧
          (repaired = table ∨ repaired = finished) ∧
          ∃ value, repaired.HasFrame (Key.ofText key) ⟨value, frame.expireAt⟩ ∧
            value.kind = frame.value.kind := by
  obtain ⟨table, htable, expireAt, hholds⟩ :=
    session.run_holds_unreserved hstart hreserved steps hops hcount
  refine ⟨table, htable, ?_⟩
  intro frame env op plan hframe hstructure hkey hchanges crashed finished
  have hsound := hholds.sound hcount hframe hstructure
  obtain ⟨outcome, after, hruns, hafter⟩ :=
    hholds.mends_perform hcount hsound env hkey hchanges
  obtain ⟨report, repaired, hrepair, hends⟩ :=
    hruns.stage (hafter.recovers_after table) plan
  have hfinished : finished = after := by
    dsimp only [finished]
    rw [hruns.run]
    rfl
  rw [hfinished]
  refine ⟨report, repaired, hrepair, hends, ?_⟩
  obtain rfl | rfl := hends
  · exact hsound.frame
  · exact hafter.frame

/-- A map that expires counts no item but has one: the write of its count
failed. -/
theorem repair_recovers_counted :
    let env : Environment := ⟨.ofInt64 0, ⟨60, by decide, by decide⟩, .none⟩
    let session : Session := ⟨.ofTable .empty, ⟨0⟩, env.width, .none⟩
    let steps : List Session.Step := [.operation (.mapCreate "key"),
      .operation (.expireAt "key" (.ofInt64 7))]
    let op : Operation := .mapSet "key" "f" .null
    let table := (session.run steps).2.engine.table
    let frame : Frame := ⟨.map 0, some (.ofInt64 7)⟩
    let crashed := ((op.perform env).run ⟨table, some (.after [.set] 1)⟩).2.table
    let finished := ((op.perform env).run (.ofTable table)).2.table
    Key.isReserved "key" = false ∧
      (∀ op ∈ Session.operations steps, op.key? = some "key") ∧
      (Session.operations steps).length < 2 ^ 63 ∧
      table.HasFrame (Key.ofText "key") frame ∧ frame.value.kind.isStructure = true ∧
      op.key? = some "key" ∧ op.changesItem = true ∧
      crashed.HasFrame (Key.ofText "key") frame ∧
      crashed.countUnder (Key.itemStem "key" .map) = 1 ∧
      ∃ report repaired, (repair "key").run (.ofTable crashed) = (.ok report, .ofTable repaired) ∧
        (repaired = table ∨ repaired = finished) ∧
        ∃ value, repaired.HasFrame (Key.ofText "key") ⟨value, frame.expireAt⟩ ∧
          value.kind = frame.value.kind := by
  intro env session steps op table frame crashed finished
  have hops : ∀ op ∈ Session.operations steps, op.key? = some "key" := by
    intro op hop
    obtain rfl | rfl := List.mem_pair.mp hop
    · rfl
    · rfl
  have hlength : (Session.operations steps).length < 2 ^ 63 := by decide
  have hframe : table.HasFrame (Key.ofText "key") frame :=
    ⟨0x11 :: [0, 0, 0, 0, 0, 0, 0, 0, 7, 0, 0, 0, 0, 0, 0, 0], by decide +kernel, by decide +kernel⟩
  have hcrashed : crashed.HasFrame (Key.ofText "key") frame :=
    ⟨0x11 :: [0, 0, 0, 0, 0, 0, 0, 0, 7, 0, 0, 0, 0, 0, 0, 0], by decide +kernel, by decide +kernel⟩
  have hitems : crashed.countUnder (Key.itemStem "key" .map) = 1 := by decide +kernel
  obtain ⟨reached, hreached, hrecovers⟩ :=
    repair_recovers session steps "key" rfl (by decide) hops hlength
  have hsame : reached = table := (congrArg Engine.table hreached).symm
  subst hsame
  exact ⟨by decide, hops, hlength, hframe, rfl, rfl, rfl, hcrashed, hitems,
    hrecovers frame env op (.after [.set] 1) hframe rfl rfl rfl⟩

end Repair
end StructuredStore
