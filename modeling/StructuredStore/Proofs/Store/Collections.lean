import StructuredStore.Proofs.FieldMap.Dictionary
import StructuredStore.Proofs.MemberSet.Collection

/-!
# Maps and sets over whole runs

The operations on a map or on a set, in any order and number, and with any texts
as fields or members, answer what a finite map or a finite set answers.  Every
count is the number of entries, listings have exactly the entries, in strictly
increasing order of their bytes, and the rows are those of the entries and of
the metadata that counts them.

Main results:

- `run_calls_eq_finite`: maps and sets, from an empty store.
-/

namespace StructuredStore.Store

open Engine
open Deque (Survives)

/-- A session on an empty store answers any run of operations on one map as a
finite map does, and any run of operations on one set as a finite set does.  What
changes nothing in the finite map or set leaves the rows as they are, unless it
writes a value. -/
theorem run_calls_eq_finite (session : Session) (hstart : session.engine = .ofTable .empty)
    (key : String) (hkey : Key.isReserved key = false) :
    (∀ calls : List FieldMap.Call, calls.length < 2 ^ 63 →
      (∀ call ∈ calls, ∀ value, call.value? = some value → Survives value) →
      RunsAs session (FieldMap.Call.operation key) FieldMap.Call.answer FieldMap.Call.Idle
        (FieldMap.Laid key) none calls) ∧
    ∀ calls : List MemberSet.Call, calls.length < 2 ^ 63 →
      RunsAs session (MemberSet.Call.operation key) MemberSet.Call.answer MemberSet.Call.Idle
        (MemberSet.Laid key) none calls := by
  constructor
  · intro calls hcount hvalues
    exact (FieldMap.refines key hkey).runsAs hstart hvalues (by omega) (stands_empty key .map)
      fun _ _ _ h halone => h.laid halone
  · intro calls hcount
    exact (MemberSet.refines key hkey).runsAs hstart (fun _ _ => trivial) (by omega)
      (stands_empty key .set) fun _ _ _ h halone => h.laid halone

/-- Fields and members with colons and without characters, listed in the order of
their bytes. -/
theorem run_calls_eq_finite_colons :
    let session : Session := ⟨.ofTable .empty, ⟨0⟩, ⟨60, by decide, by decide⟩, .none⟩
    let calls : List FieldMap.Call := [.set "f" .null, .create, .set "k:M:" (.int 7),
      .set "" (.text "x"), .set "k:M:" (.bool true), .remove "f", .entries, .fields, .get "f",
      .contains "", .remove "", .values, .size, .delete, .size]
    let others : List MemberSet.Call := [.create, .add "é", .add ":", .add "é", .add "", .members,
      .remove "x", .remove "", .contains "", .size]
    Key.isReserved "k" = false ∧ calls.length < 2 ^ 63 ∧
      (∀ call ∈ calls, ∀ value, call.value? = some value → Survives value) ∧
      others.length < 2 ^ 63 ∧
      (session.run (stepsOf (FieldMap.Call.operation "k") calls)).1 =
        [.error .notFound, .ok .done, .ok (.count 1), .ok (.count 2), .ok (.count 2),
          .ok (.count 2), .ok (.entries [("", .text "x"), ("k:M:", .bool true)]),
          .ok (.names ["", "k:M:"]), .error .notFound, .ok (.flag true), .ok (.count 1),
          .ok (.values [.bool true]), .ok (.count 1), .ok .done, .error .notFound] ∧
      (session.run (stepsOf (MemberSet.Call.operation "k") others)).1 =
        [.ok .done, .ok (.count 1), .ok (.count 2), .ok (.count 2), .ok (.count 3),
          .ok (.names ["", ":", "é"]), .ok (.count 3), .ok (.count 2), .ok (.flag false),
          .ok (.count 2)] ∧
      RunsAs session (FieldMap.Call.operation "k") FieldMap.Call.answer FieldMap.Call.Idle
        (FieldMap.Laid "k") none calls ∧
      RunsAs session (MemberSet.Call.operation "k") MemberSet.Call.answer MemberSet.Call.Idle
        (MemberSet.Laid "k") none others := by
  intro session calls others
  have hkey : Key.isReserved "k" = false := by decide
  have hcount : calls.length < 2 ^ 63 := by decide
  have hothers : others.length < 2 ^ 63 := by decide
  have hvalues : ∀ call ∈ calls, ∀ value, call.value? = some value → Survives value := by
    simp only [calls, List.forall_mem_cons, FieldMap.Call.value?, Option.some.injEq, forall_eq',
      reduceCtorEq, false_imp_iff, implies_true, true_and, and_true, List.not_mem_nil]
    exact ⟨Deque.survives_of_storable trivial rfl, Deque.survives_of_storable trivial rfl,
      Deque.survives_of_storable trivial rfl, Deque.survives_of_storable trivial rfl⟩
  have hfinite := run_calls_eq_finite session rfl "k" hkey
  exact ⟨hkey, hcount, hvalues, hothers, by decide +kernel, by decide +kernel,
    hfinite.1 calls hcount hvalues, hfinite.2 others hothers⟩

end StructuredStore.Store
