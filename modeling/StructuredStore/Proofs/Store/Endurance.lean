import StructuredStore.Proofs.Deque.Update
import StructuredStore.Proofs.Engine.Endurance
import StructuredStore.Proofs.Store.Confinement

/-!
# Shared steps, whichever calls fail

What the shared steps of the operations answer and leave, whichever calls fail:
reads leave the table as it is, a write happens or does not, and a removal only
takes rows away.

Main results:

- `finds_readExisting`, `Deque.finds_readHandle`: what reads find.
- `endures_write`, `endures_purge`: frames that are written or removed.
- `endures_create`, `of_run_create_alreadyExists`: structures that are created.
- `Deque.endures_takeAll`: which items a list had that was taken.
-/

namespace StructuredStore

open Engine

namespace Store

/-! ## Frames -/

theorem finds_lift {α : Type} (table : Table) (result : Except DataError α) :
    Finds table (lift result) fun a => result = .ok a := by
  cases result with
  | error fault => exact .throw _
  | ok a => exact .pure rfl

/-- A read finds what lies at the key. -/
theorem finds_read (table : Table) (key : Bytes) :
    Finds table (read key) fun
      | none => table.get? key = none
      | some frame => table.HasFrame key frame := by
  apply Finds.bind (.get table key)
  intro contents hcontents
  cases contents with
  | none => exact .pure hcontents.symm
  | some bytes =>
      apply Finds.bind (finds_lift table _)
      intro frame hdecode
      exact .pure ⟨bytes, hcontents.symm, hdecode⟩

theorem finds_readExisting (table : Table) (key : Bytes) :
    Finds table (readExisting key) fun frame => table.HasFrame key frame := by
  apply Finds.bind (finds_read table key)
  intro found hfound
  cases found with
  | none => exact .throw _
  | some frame => exact .pure hfound

theorem finds_readAs (table : Table) (key : Bytes) (kind : Kind) :
    Finds table (readAs key kind) fun frame =>
      table.HasFrame key frame ∧ frame.value.kind = kind := by
  apply Finds.bind (.get table key)
  intro contents hcontents
  cases contents with
  | none => exact .throw _
  | some bytes =>
      apply (finds_lift table _).conseq
      intro outcome after h
      refine ⟨h.1, fun frame hframe => ?_⟩
      have hread := Frame.decodeAs_eq_ok_iff.mp (h.2 frame hframe)
      exact ⟨⟨bytes, hcontents.symm, hread.1⟩, hread.2⟩

/-- A frame is written, or the table is left as it was, which is a failure. -/
theorem endures_write {table : Table} {key : Bytes} {value : Value} {expireAt : Option Instant}
    {post : Except StoreError Unit → Table → Prop} (hfail : ∀ e, post (.error e) table)
    (hwritten : ∀ bytes, Frame.encode ⟨value, expireAt⟩ = .ok bytes →
      ∀ outcome, post outcome (table.insert key bytes)) :
    Endures table (write key value expireAt) post := by
  apply (finds_lift table _).before hfail
  intro bytes hencode
  have hafter := hwritten bytes hencode
  exact .perform (hafter _) hfail fun _ => hafter _

/-- A step behind a write. -/
theorem endures_write_bind {α : Type} {table : Table} {key : Bytes} {value : Value}
    {expireAt : Option Instant} {next : Unit → StoreM α}
    {post : Except StoreError α → Table → Prop} (hfail : ∀ e, post (.error e) table)
    (hbroken : ∀ bytes, Frame.encode ⟨value, expireAt⟩ = .ok bytes →
      ∀ e, post (.error e) (table.insert key bytes))
    (hok : ∀ bytes, Frame.encode ⟨value, expireAt⟩ = .ok bytes →
      Endures (table.insert key bytes) (next ()) post) :
    Endures table (write key value expireAt >>= next) post := by
  have hwrite : Endures table (write key value expireAt) fun outcome after =>
      (∃ e, outcome = .error e ∧ after = table) ∨
        ∃ bytes, Frame.encode ⟨value, expireAt⟩ = .ok bytes ∧ after = table.insert key bytes := by
    apply endures_write
    · exact fun e => Or.inl ⟨e, rfl, rfl⟩
    · exact fun bytes hencode _ => Or.inr ⟨bytes, hencode, rfl⟩
  apply Endures.bind hwrite
  · intro e between hbetween
    rcases hbetween with ⟨_, _, rfl⟩ | ⟨bytes, hencode, rfl⟩
    · exact hfail e
    · exact hbroken bytes hencode e
  · intro _ between hbetween
    rcases hbetween with ⟨_, heq, _⟩ | ⟨bytes, hencode, rfl⟩
    · cases heq
    · exact hok bytes hencode

/-! ## Creating -/

/-- What is created was absent and is there, whichever calls fail. -/
theorem endures_create (table : Table) (key : String) (metadata : Value) :
    Endures table (create key metadata) fun outcome after => ∀ a, outcome = .ok a →
      table.get? (Key.ofText key) = none ∧ after.get? (Key.ofText key) ≠ none := by
  have hrequire : Finds table (requireUnreserved key) fun _ => True := by
    unfold requireUnreserved
    split
    · exact .throw _
    · exact .pure trivial
  refine hrequire.before (fun _ => nofun) fun _ _ => ?_
  refine (Finds.get table _).before (fun _ => nofun) fun found hfound => ?_
  refine .ite (fun _ => .throw nofun) fun habsent => ?_
  refine endures_write (fun _ => nofun) fun bytes _ outcome _ _ => ⟨?_, ?_⟩
  · rw [← hfound]
    simpa using habsent
  · rw [Table.get?_insert_self]
    exact Option.some_ne_none bytes

/-- A write does not fail because a key is taken. -/
theorem ne_alreadyExists_of_run_write {key : Bytes} {value : Value} {expireAt : Option Instant}
    {engine left : Engine} {e : StoreError}
    (h : (write key value expireAt).run engine = (.error e, left)) : e ≠ .alreadyExists := by
  rintro rfl
  cases hencode : Frame.encode ⟨value, expireAt⟩ with
  | error fault =>
      rw [write, run_bind_error (run_lift_error hencode engine)] at h
      cases fault <;> cases h
  | ok bytes =>
      rw [write, run_bind_ok (run_lift_ok hencode engine)] at h
      cases eq_injected_of_run_perform h

/-- What a key holds is not created again, and nothing changes. -/
theorem of_run_create_alreadyExists {key : String} {metadata : Value} {engine left : Engine}
    (h : (create key metadata).run engine = (.error .alreadyExists, left)) :
    engine.table.get? (Key.ofText key) ≠ none ∧ left.table = engine.table := by
  cases hreserved : Key.isReserved key with
  | true =>
      have hrequire :
          (requireUnreserved key).run engine = (.error (.reservedKey key), engine) := by
        rw [requireUnreserved, hreserved]
        rfl
      rw [create, run_bind_error hrequire] at h
      cases h
  | false =>
      rw [create, run_bind_ok (run_requireUnreserved hreserved engine)] at h
      rcases hget : (Engine.get (Key.ofText key)).run engine with ⟨e | found, between⟩
      · rw [run_bind_error hget] at h
        cases h
        cases eq_injected_of_run_perform hget
      · rw [run_bind_ok hget] at h
        obtain ⟨htable, hfound⟩ := (Finds.get engine.table (Key.ofText key)).of_run hget
        split at h
        · rename_i hthere
          cases h
          refine ⟨fun habsent => ?_, htable⟩
          rw [hfound found rfl, habsent] at hthere
          cases hthere
        · exact absurd rfl (ne_alreadyExists_of_run_write h)

/-! ## Removals -/

theorem thinning_removeKeys (keys : List Bytes) : Thinning (removeKeys keys) := by
  induction keys with
  | nil => exact .of_readOnly (.pure ())
  | cons key keys ih => exact .bind (.delete key) fun _ => ih

theorem thinning_removeItems (key : String) (marker : Key.Marker) :
    Thinning (removeItems key marker) :=
  .bind (.of_readOnly (.scan _)) fun _ => thinning_removeKeys _

theorem thinning_removeIndices (key : String) (first : Int64) (count : Nat) :
    Thinning (removeIndices key first count) := by
  induction count generalizing first with
  | zero => exact .of_readOnly (.pure ())
  | succ count ih => exact .bind (.delete _) fun _ => ih (first + 1)

/-- A value is removed with its items; if that succeeds, it is gone. -/
theorem endures_purge (table : Table) (key : String) (value : Value) :
    Endures table (purge key value) fun outcome after =>
      table.Thins after ∧ ∀ a, outcome = .ok a → after.get? (Key.ofText key) = none := by
  have hself := (Thinning.of_readOnly (.pure ())).bind_delete (Key.ofText key) table
  cases value with
  | list handle =>
      apply Endures.ite
      · exact fun _ => (thinning_removeIndices key _ _).bind_delete _ table
      · exact fun _ => hself
  | map count => exact (thinning_removeItems key .map).bind_delete _ table
  | set count => exact (thinning_removeItems key .set).bind_delete _ table
  | series count => exact (thinning_removeItems key .series).bind_delete _ table
  | bloom handle => exact (thinning_removeItems key .bloom).bind_delete _ table
  | _ => exact hself

theorem thinning_purge (key : String) (value : Value) : Thinning (purge key value) :=
  fun table => (endures_purge table key value).conseq fun _ _ h => h.1

end Store

/-! ## Lists -/

namespace Deque

theorem finds_readHandle (table : Table) (key : String) :
    Finds table (readHandle key) fun found =>
      table.HasFrame (Key.ofText key) ⟨.list found.1, found.2⟩ := by
  apply Finds.bind (Store.finds_readAs table _ .list)
  intro ⟨value, expireAt⟩ ⟨hframe, hkind⟩
  cases value with
  | list handle => exact .pure hframe
  | _ => cases hkind

theorem finds_grow (table : Table) (handle : ListHandle) (side : End) :
    Finds table (grow handle side) fun next =>
      ¬ Full handle side ∧ next = (grown handle side, newIndex handle side) := by
  by_cases hfull : Full handle side
  · exact .of_run_error fun engine => run_grow_full hfull engine
  · exact .of_run_ok (fun engine => run_grow hfull engine) ⟨hfull, rfl⟩

/-- A push that succeeds finds the metadata of a list and counts one more. -/
theorem endures_push_counts (table : Table) (key : String) (value : Value) (side : End) :
    Endures table (push key value side) fun outcome after => ∀ length, outcome = .ok length →
      ∃ handle expireAt, table.HasFrame (Key.ofText key) ⟨.list handle, expireAt⟩ ∧
        ¬ Full handle side ∧
        after.HasFrame (Key.ofText key) ⟨.list (grown handle side), expireAt⟩ := by
  refine (finds_readHandle table key).before (fun _ => nofun) ?_
  intro ⟨handle, expireAt⟩ (hframe : table.HasFrame (Key.ofText key) ⟨.list handle, expireAt⟩)
  refine (finds_grow table handle side).before (fun _ => nofun) ?_
  rintro _ ⟨hroom, rfl⟩
  refine Store.endures_write_bind (fun _ => nofun) (fun _ _ _ => nofun) fun item _ => ?_
  refine Store.endures_write_bind (fun _ => nofun) (fun _ _ _ => nofun) fun contents hcontents => ?_
  refine .pure fun _ _ => ⟨handle, expireAt, hframe, hroom, ?_⟩
  exact .insert _ _ hcontents (storable_grown hframe.storable hroom) hframe.asStored_expireAt

/-- An item that can be read is found. -/
theorem finds_readItem (table : Table) (key : String) (index : Int64) :
    Finds table (readItem key index) fun item =>
      ∀ frame, table.HasFrame (Key.listItem key index) frame → item = some frame.value := by
  apply Finds.bind (Store.finds_read table _)
  intro found hfound
  apply Finds.pure
  intro frame hframe
  cases found with
  | none => exact absurd hfound hframe.get?_ne_none
  | some other =>
      rw [Table.HasFrame.unique hfound hframe]
      rfl

/-- Metadata that promises an item is not that of an empty list. -/
theorem length_ne_zero_of_mem {table : Table} {physical : Bytes} {handle : ListHandle}
    {expireAt : Option Instant} {index : Int64}
    (h : table.HasFrame physical ⟨.list handle, expireAt⟩)
    (hlow : handle.head.toInt ≤ index.toInt) (hhigh : index.toInt ≤ handle.tail.toInt) :
    handle.length ≠ 0 := by
  obtain ⟨bytes, _, hdecode⟩ := h
  have hzero : (0 : Int64).toInt = 0 := rfl
  rcases Frame.storable_of_decode hdecode with hempty | hpos
  · subst hempty
    have hhead : ListHandle.empty.head.toInt = 0 := rfl
    have htail : ListHandle.empty.tail.toInt = -1 := rfl
    omega
  · intro hlength
    rw [hlength] at hpos
    omega

/-- What is drained has every item in the interval that could be read. -/
theorem endures_drain (table : Table) (key : String) (first : Int64) (count : Nat) :
    Endures table (drain key first count) fun outcome _ =>
      ∀ items, outcome = .ok items → ∀ (index : Int64) (frame : Frame),
        first.toInt ≤ index.toInt → index.toInt < first.toInt + count →
        table.HasFrame (Key.listItem key index) frame → frame.value ∈ items := by
  induction count generalizing first table with
  | zero =>
      apply Endures.pure
      intro _ _ index _ hlow hhigh
      omega
  | succ count ih =>
      apply (finds_readItem table key first).before fun _ _ heq => by cases heq
      intro item hitem
      have herase : Endures table (Engine.delete (Key.listItem key first)) fun outcome after =>
          ∀ a, outcome = .ok a → after = table.erase (Key.listItem key first) :=
        .perform (fun _ _ => rfl) (fun _ _ heq => by cases heq) fun _ _ heq => by cases heq
      apply Endures.bind herase
      · exact fun _ _ _ _ heq => by cases heq
      intro _ erased herased
      rw [herased () rfl]
      apply Endures.bind (ih _ (first + 1)) fun _ _ _ _ heq => by cases heq
      intro rest after hrest
      apply Endures.pure
      intro items hitems index frame hlow hhigh hframe
      cases hitems
      by_cases hfirst : index = first
      · subst hfirst
        rw [hitem frame hframe]
        exact List.mem_append_left _ (List.mem_singleton_self _)
      · have hne : index.toInt ≠ first.toInt := fun heq => hfirst (Int64.toInt_inj.mp heq)
        have hbound : index.toInt ≤ 9223372036854775807 := index.toInt_le
        have hnext := @toInt_add_one first (by omega)
        apply List.mem_append_right
        apply hrest rest rfl index frame (by omega) (by push_cast at hhigh; omega)
        apply hframe.congr
        apply Table.get?_erase_of_ne
        simpa using Ne.symm hfirst

theorem thinning_drain (key : String) (first : Int64) (count : Nat) :
    Thinning (drain key first count) := by
  induction count generalizing first with
  | zero => exact .of_readOnly (.pure _)
  | succ count ih =>
      apply Thinning.bind (.of_readOnly (confined_readItem key first))
      intro _
      apply Thinning.bind (.delete _)
      intro _
      exact .bind (ih (first + 1)) fun _ => .of_readOnly (.pure _)

/-- Arithmetic that does not break off is exact. -/
theorem finds_inRange (table : Table) (cause : Abort) (i : Int) :
    Finds table (inRange cause i) fun index => index.toInt = i := by
  unfold inRange
  split
  · rename_i hfits
    exact .pure (toInt_ofInt_of_fits hfits)
  · exact .throw _

/-- A buffer is set up without a call. -/
theorem finds_reserve (table : Table) (key : String) (count : Nat) :
    Finds table (reserve key count) fun _ => True :=
  .of_readOnly (confined_reserve key count)

theorem finds_shrink (table : Table) (handle : ListHandle) (side : End) :
    Finds table (shrink handle side) fun next => next = shrunk handle side := by
  rcases shrink_cases handle side with heq | ⟨cause, heq⟩
  · rw [heq]
    exact .pure rfl
  · rw [heq]
    exact .throw _

/-- The metadata of a list is removed behind its items. -/
theorem endures_delete_items {table between : Table} (h : table.Thins between) (key : Bytes)
    (items : List Value) :
    Endures between (Engine.delete key >>= fun _ => (pure items : StoreM (List Value)))
      fun outcome after => table.Thins after ∧
        ∀ taken, outcome = .ok taken → taken = items ∧ after.get? key = none := by
  apply Endures.bind ((Thinning.of_readOnly (.pure ())).bind_delete key between)
  · exact fun _ _ hafter => ⟨h.trans hafter.1, fun _ heq => by cases heq⟩
  · intro _ after hafter
    refine .pure ⟨h.trans hafter.1, fun taken heq => ?_⟩
    cases heq
    exact ⟨rfl, hafter.2 () rfl⟩

/-- A list that is taken loses its metadata, and every item that could be read
is among what was taken.  Whatever fails, rows are only removed. -/
theorem endures_takeAll (table : Table) (key : String) :
    Endures table (takeAll key) fun outcome after => table.Thins after ∧
      ∀ items, outcome = .ok items → after.get? (Key.ofText key) = none ∧
        ∀ handle expireAt, table.HasFrame (Key.ofText key) ⟨.list handle, expireAt⟩ →
          ∀ (index : Int64) (frame : Frame), handle.head.toInt ≤ index.toInt →
            index.toInt ≤ handle.tail.toInt →
            table.HasFrame (Key.listItem key index) frame → frame.value ∈ items := by
  apply (Finds.get table _).before fun _ => ⟨.refl table, fun _ heq => by cases heq⟩
  intro contents hcontents
  cases contents with
  | none =>
      refine .pure ⟨.refl table, fun _ _ => ⟨hcontents.symm, fun _ _ hframe => ?_⟩⟩
      exact absurd hcontents.symm hframe.get?_ne_none
  | some bytes =>
      apply (Store.finds_lift table _).before fun _ => ⟨.refl table, fun _ heq => by cases heq⟩
      intro ⟨value, expireAt⟩ hdecodeAs
      have hread := Frame.decodeAs_eq_ok_iff.mp hdecodeAs
      have hframe : table.HasFrame (Key.ofText key) ⟨value, expireAt⟩ :=
        ⟨bytes, hcontents.symm, hread.1⟩
      cases value with
      | list handle =>
          apply (finds_reserve table key _).before fun _ => ⟨.refl table, fun _ heq => by cases heq⟩
          intro _ _
          apply Endures.ite
          · intro hlength
            apply (endures_delete_items (.refl table) _ []).conseq
            intro outcome after h
            refine ⟨h.1, fun items heq => ⟨(h.2 items heq).2, ?_⟩⟩
            intro other expireAt' hother index _ hlow hhigh
            cases hframe.unique hother
            exact absurd hlength (length_ne_zero_of_mem hframe hlow hhigh)
          · intro _
            apply Endures.bind ((thinning_drain key _ _ table).and (endures_drain table key _ _))
            · exact fun _ _ h => ⟨h.1, fun _ heq => by cases heq⟩
            intro drained between h
            apply (endures_delete_items h.1 _ drained).conseq
            intro outcome after hafter
            refine ⟨hafter.1, fun items heq => ⟨(hafter.2 items heq).2, ?_⟩⟩
            intro other expireAt' hother index frame hlow hhigh hitem
            cases hframe.unique hother
            rw [(hafter.2 items heq).1]
            apply h.2 drained rfl index frame hlow _ hitem
            rw [Store.spanLength]
            omega
      | _ => cases hread.2

end Deque
end StructuredStore
