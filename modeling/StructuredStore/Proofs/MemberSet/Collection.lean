import StructuredStore.Proofs.Store.Refinement

/-!
# Sets are finite sets

A set, worked on by any run of operations, answers what a finite set of texts
answers.

Main results:

- `Call.answer`: what a finite set answers and becomes.
- `refines`: the operations on a set do what the finite set does.
-/

namespace StructuredStore.MemberSet

open Engine Store
open Operation (ends_silent)

/-! ## Operations on one set -/

/-- An operation on a set. -/
inductive Call where
  | create
  | add (member : String)
  | remove (member : String)
  | contains (member : String)
  | size
  | members
  | delete

/-- The number of members of a finite set, as a reply. -/
def counted (collection : Finset String) : Except StoreError Reply :=
  .ok (.count (UInt64.ofNat collection.card))

namespace Call

/-- The operation of the store on the set at a key. -/
def operation (key : String) : Call → Operation
  | create => .setCreate key
  | add member => .setAdd key member
  | remove member => .setRemove key member
  | contains member => .setContains key member
  | size => .setSize key
  | members => .setMembers key
  | delete => .setDelete key

/-- What an operation answers on a finite set, and the set after it; there may be
none. -/
def answer : Call → Option (Finset String) → Except StoreError Reply × Option (Finset String)
  | create, none => (.ok .done, some ∅)
  | create, some collection => (.error .alreadyExists, some collection)
  | _, none => (.error .notFound, none)
  | add member, some collection =>
      (counted (insert member collection), some (insert member collection))
  | remove member, some collection =>
      (counted (collection.erase member), some (collection.erase member))
  | contains member, some collection =>
      (.ok (.flag (decide (member ∈ collection))), some collection)
  | size, some collection => (counted collection, some collection)
  | members, some collection => (.ok (.names (Utf8.inOrder collection)), some collection)
  | delete, some _ => (.ok .done, none)

/-- Whether a call leaves the finite set as it is. -/
def Idle (call : Call) (state : Option (Finset String)) : Prop :=
  (call.answer state).2 = state

end Call

/-! ## Finite sets -/

/-- The values under the members of a finite set: they carry nothing. -/
def marks (collection : Finset String) (member : String) : Option Value :=
  if member ∈ collection then some .null else none

theorem mem_iff_marks (collection : Finset String) (member : String) :
    member ∈ collection ↔ marks collection member ≠ none := by
  rw [marks]
  split <;> simp_all

theorem marks_insert (collection : Finset String) (member : String) :
    marks (insert member collection) =
      Function.update (marks collection) member (some .null) := by
  funext other
  by_cases heq : other = member
  · simp [marks, heq]
  · simp [marks, heq]

theorem marks_erase (collection : Finset String) (member : String) :
    marks (collection.erase member) = Function.update (marks collection) member none := by
  funext other
  by_cases heq : other = member
  · simp [marks, heq]
  · simp [marks, heq]

/-! ## Single operations -/

section Steps

variable {table : Table} {key : String} {steps : Nat} {count : UInt64}
  {collection : Finset String}

/-- Whether the table holds the finite set at a key. -/
def Holds (key : String) (steps : Nat) (state : Option (Finset String)) (table : Table) : Prop :=
  Stands key .set steps (state.map marks) table

/-- What is answered, what is left, and that nothing changed if nothing had to. -/
def Answered (key : String) (steps : Nat) (state : Option (Finset String)) (call : Call)
    (table : Table) (outcome : Except StoreError Reply) (after : Table) : Prop :=
  outcome = (call.answer state).1 ∧ Holds key (steps + 1) (call.answer state).2 after ∧
    (call.Idle state → after = table)

/-- Where there is no set, all operations but the creation fail. -/
theorem ends_call_absent (env : Environment) (hkey : Key.isReserved key = false)
    (h : table.Vacant key) (call : Call) :
    Ends table ((call.operation key).perform env) (Answered key steps none call table) := by
  have habsent := h _ (.self key)
  have hread : (readCount key .set).run (ofTable table) = (.error .notFound, ofTable table) :=
    run_readCount_absent habsent
  have hfails : call ≠ .create → Answered key steps none call table (.error .notFound) table := by
    intro hcall
    cases call with
    | create => exact absurd rfl hcall
    | _ => exact ⟨rfl, h, fun _ => rfl⟩
  cases call with
  | create =>
      refine ends_silent ((ends_create_stands .set steps hkey h).conseq ?_)
      rintro outcome after ⟨rfl, hafter⟩
      exact ⟨rfl, hafter, fun hidle => by cases hidle⟩
  | delete => exact ends_silent (.bind_error (run_readAs_none .set habsent) (hfails nofun))
  | _ => exact .map _ (.bind_error hread (hfails nofun))

/-- The members are listed. -/
theorem run_members (htallied : Tallied table key .set .set count none)
    (hnamed : Named table key .set (marks collection)) :
    (members key).run (ofTable table) = (.ok (Utf8.inOrder collection), ofTable table) := by
  have hmembers : (table.rowsUnder (Key.itemStem key .set)).mapM (readMember key) =
      .ok (Utf8.inOrder collection) := by
    rw [← @List.filterMap_some String (Utf8.inOrder collection)]
    apply hnamed.mapM_rowsUnder (mem_iff_marks collection)
    intro member value contents _ _
    refine ⟨member, rfl, ?_⟩
    rw [readMember, Key.decode?_drop_namedItem]
  rw [members, run_bind_ok (run_readCount htallied.frame), run_bind_ok (run_scan table _)]
  exact run_lift_ok hmembers _

/-- An operation that leaves the finite set and the rows as they are. -/
theorem answered_same {call : Call} {outcome : Except StoreError Reply}
    (h : Holds key (steps + 1) (some collection) table)
    (hanswer : call.answer (some collection) = (outcome, some collection)) :
    Answered key steps (some collection) call table outcome table := by
  rw [Answered, hanswer]
  exact ⟨rfl, h, fun _ => rfl⟩

/-- An operation that answers the number of members that it leaves. -/
theorem answered_counted {call : Call} {after : Table} {next : UInt64} {changed : Finset String}
    (hnext : next.toNat ≤ steps + 1) (htallied : Tallied after key .set .set next none)
    (hnamed : Named after key .set (marks changed))
    (hanswer : call.answer (some collection) = (counted changed, some changed))
    (hidle : changed = collection → after = table) :
    Answered key steps (some collection) call table (.ok (.count next)) after := by
  rw [Answered, Call.Idle, hanswer]
  refine ⟨?_, ⟨next, hnext, htallied, hnamed⟩, fun hstate => hidle (Option.some.inj hstate)⟩
  rw [counted, ← hnamed.count_eq htallied (mem_iff_marks changed)]

section Present

variable {member : String} (hcount : count.toNat ≤ steps)
  (htallied : Tallied table key .set .set count none)
  (hnamed : Named table key .set (marks collection))
include hcount htallied hnamed

theorem ends_add (hsteps : steps + 1 < 9223372036854775808) :
    Ends table (Reply.count <$> add key member)
      (Answered key steps (some collection) (.add member) table) := by
  obtain ⟨item, hencode, hdecode⟩ : Deque.Survives .null :=
    Deque.survives_of_storable trivial rfl
  refine .map _ (.bind_run (run_readCount htallied.frame)
    ((hnamed.placed.ends_putNewItem htallied (by omega) member hencode hdecode).conseq ?_))
  rintro outcome after ⟨next, rfl, hnext, htallied', hafter⟩
  split at hafter
  · rename_i hsome
    have hmember : member ∈ collection :=
      (mem_iff_marks collection member).mpr (Option.isSome_iff_ne_none.mp hsome)
    subst hafter
    refine answered_counted (by omega) htallied' hnamed ?_ fun _ => rfl
    rw [Call.answer, Finset.insert_eq_of_mem hmember]
  · rename_i hnone
    rw [← marks_insert] at hafter
    refine answered_counted (by omega) htallied' (.of_placed hafter) rfl fun hstate => ?_
    have hmember : member ∈ collection := Finset.insert_eq_self.mp hstate
    exact absurd (Option.isSome_iff_ne_none.mpr
      ((mem_iff_marks collection member).mp hmember)) hnone

theorem ends_remove :
    Ends table (Reply.count <$> remove key member)
      (Answered key steps (some collection) (.remove member) table) := by
  refine .map _ (.bind_run (run_readCount htallied.frame)
    ((hnamed.placed.ends_takeItem htallied member).conseq ?_))
  rintro outcome after ⟨next, rfl, hnext, htallied', hafter⟩
  split at hafter
  · rename_i hnone
    have habsent : member ∉ collection := fun hmember =>
      (mem_iff_marks collection member).mp hmember (Option.isNone_iff_eq_none.mp hnone)
    subst hafter
    refine answered_counted (by omega) htallied' hnamed ?_ fun _ => rfl
    rw [Call.answer, Finset.erase_eq_of_notMem habsent]
  · rename_i hsome
    rw [← marks_erase] at hafter
    refine answered_counted (by omega) htallied' (.of_placed hafter) rfl fun hstate => ?_
    have habsent : member ∉ collection := Finset.erase_eq_self.mp hstate
    exact absurd (Option.isNone_iff_eq_none.mpr (if_neg habsent)) hsome

/-- An operation on a set answers what the finite set answers, and leaves what
the finite set becomes. -/
theorem ends_call_present (env : Environment) (hkey : Key.isReserved key = false)
    (hsteps : steps + 1 < 9223372036854775808) (call : Call) :
    Ends table ((call.operation key).perform env)
      (Answered key steps (some collection) call table) := by
  have hread : (readCount key .set).run (ofTable table) = (.ok (count, none), ofTable table) :=
    run_readCount htallied.frame
  have hsame : Holds key (steps + 1) (some collection) table :=
    ⟨count, by omega, htallied, hnamed⟩
  cases call with
  | create =>
      exact ends_silent (.of_run (run_create_taken hkey htallied.frame.get?_ne_none _)
        (answered_same hsame rfl))
  | add member => exact ends_add hcount htallied hnamed hsteps
  | remove member => exact ends_remove hcount htallied hnamed
  | contains member =>
      have hflag : decide (member ∈ collection) =
          (table.get? (Key.namedItem key .set member)).isSome := by
        rw [hnamed.isSome_get?, Bool.eq_iff_iff, Option.isSome_iff_ne_none, decide_eq_true_iff,
          mem_iff_marks]
      refine .map _ (.bind_run hread (.bind_run (run_get table _) (.pure (answered_same hsame ?_))))
      rw [Call.answer, hflag]
      rfl
  | size =>
      exact .map _ (.bind_run hread (.pure (answered_counted (Nat.le_succ_of_le hcount) htallied
        hnamed rfl fun _ => rfl)))
  | members =>
      exact .map _ (.of_run (run_members htallied hnamed) (answered_same hsame rfl))
  | delete =>
      refine ends_silent ((htallied.ends_deleteAs rfl).conseq ?_)
      rintro outcome after ⟨rfl, hafter⟩
      exact ⟨rfl, hafter, fun hidle => by cases hidle⟩

end Present

/-- Whether the rows of a table are those of one set with the members of a finite
set, or there are none. -/
def Laid (key : String) : Option (Finset String) → Table → Prop
  | none, table => table = .empty
  | some collection, table => LaidOut key .set collection (marks collection) table

theorem Holds.laid {state : Option (Finset String)} (h : Holds key steps state table)
    (halone : Deque.Alone table key) : Laid key state table := by
  cases state with
  | none => exact Table.Vacant.eq_empty h halone
  | some collection => exact Stands.laidOut h halone (mem_iff_marks collection)

/-- The operations on a set refine those on a finite set. -/
theorem refines (key : String) (hkey : Key.isReserved key = false) :
    Refines key (Call.operation key) Call.answer (fun _ => True) Call.Idle (Holds key) := by
  refine ⟨fun call => by cases call <;> rfl, fun call => by cases call <;> rfl, ?_⟩
  intro env steps state table call _ hsteps hholds
  cases state with
  | none => exact ends_call_absent env hkey hholds call
  | some collection =>
      obtain ⟨count, hcount, htallied, hnamed⟩ := hholds
      exact ends_call_present hcount htallied hnamed env hkey hsteps call

end Steps
end StructuredStore.MemberSet
