import Mathlib.Data.Finmap
import StructuredStore.Proofs.Deque.Sequence
import StructuredStore.Proofs.Store.Named

/-!
# Operations that refine an abstract structure

A run of operations on one key refines a run of calls on an abstract structure
if every single operation, on a table that stands for a state of the structure,
answers what the state answers and leaves a table that stands for the next one.
Maps and sets share what stands for a state: metadata that counts the items, and
the items under their names.

Main results:

- `Refines.runsAs`: single steps make a run.
- `lookup_insert_along`, `lookup_erase_along`: the values of a finite map that
  changes.
- `Stands`, `LaidOut`: the table of a map or a set, and all of its rows.
-/

namespace StructuredStore

open Engine Store
open Deque (Alone)

/-! ## Runs of calls -/

section Runs

variable {Call State : Type} {key : String} {operation : Call → Operation}
  {answer : Call → State → Except StoreError Reply × State} {allowed : Call → Prop}
  {idle : Call → State → Prop} {stands : Nat → State → Table → Prop}

/-- The answers of an abstract structure to a run of calls, and its state after
them. -/
def answers (answer : Call → State → Except StoreError Reply × State) :
    State → List Call → List (Except StoreError Reply) × State
  | state, [] => ([], state)
  | state, call :: calls =>
      let (outcome, next) := answer call state
      let (outcomes, last) := answers answer next calls
      (outcome :: outcomes, last)

/-- Whether the operations of allowed calls on one key do to a table that stands
for a state what the calls do to the state, within fewer than `2 ^ 63` steps, and
nothing at all for idle calls. -/
structure Refines (key : String) (operation : Call → Operation)
    (answer : Call → State → Except StoreError Reply × State) (allowed : Call → Prop)
    (idle : Call → State → Prop) (stands : Nat → State → Table → Prop) : Prop where
  key : ∀ call, (operation call).key? = some key
  plain : ∀ call, (operation call).schedules = false
  step : ∀ (env : Environment) {steps : Nat} {state : State} {table : Table} {call : Call},
    allowed call → steps + 1 < 9223372036854775808 → stands steps state table →
    Ends table ((operation call).perform env) fun outcome after =>
      outcome = (answer call state).1 ∧ stands (steps + 1) (answer call state).2 after ∧
        (idle call state → after = table)

/-- The steps of a session that make the calls. -/
def stepsOf (operation : Call → Operation) (calls : List Call) : List Session.Step :=
  calls.map fun call => .operation (operation call)

/-- Whether a session answers a run of calls as the abstract structure does from a
given state on, ends on a table that is laid out as the last state, and does
nothing at an idle call. -/
structure RunsAs (session : Session) (operation : Call → Operation)
    (answer : Call → State → Except StoreError Reply × State) (idle : Call → State → Prop)
    (layout : State → Table → Prop) (start : State) (calls : List Call) : Prop where
  outcomes : (session.run (stepsOf operation calls)).1 = (answers answer start calls).1
  layout : ∃ after, (session.run (stepsOf operation calls)).2.engine = .ofTable after ∧
    layout (answers answer start calls).2 after
  idle : ∀ front call back, calls = front ++ call :: back →
    idle call (answers answer start front).2 →
    ((session.run (stepsOf operation front)).2.perform (operation call)).2.engine =
      (session.run (stepsOf operation front)).2.engine

namespace Refines

/-- One call of a session. -/
theorem perform (h : Refines key operation answer allowed idle stands) {session : Session}
    {steps : Nat} {state : State} {table : Table} {call : Call}
    (hengine : session.engine = .ofTable table) (hallowed : allowed call)
    (hsteps : steps + 1 < 9223372036854775808) (hstands : stands steps state table)
    (halone : Alone table key) :
    ∃ after, session.perform (operation call) =
        ((answer call state).1, { session with engine := .ofTable after }) ∧
      stands (steps + 1) (answer call state).2 after ∧ Alone after key ∧
      (idle call state → after = table) := by
  have hconfined : Confined (Key.Owns key) ((operation call).perform session.environment) :=
    Operation.confined_perform _ (h.key call) (h.plain call)
  obtain ⟨outcome, after, hrun, ⟨rfl, hafter, hidle⟩, hagree⟩ :=
    (h.step session.environment hallowed hsteps hstands).confined hconfined
  refine ⟨after, ?_, hafter, halone.of_agreeOff hagree, hidle⟩
  rw [Session.perform, hengine, hrun]

/-- A run of calls, from a table that holds nothing but what stands for the
first state. -/
theorem run (h : Refines key operation answer allowed idle stands) (calls : List Call)
    {session : Session} {steps : Nat} {state : State} {table : Table}
    (hengine : session.engine = .ofTable table) (hallowed : ∀ call ∈ calls, allowed call)
    (hsteps : steps + calls.length < 9223372036854775808) (hstands : stands steps state table)
    (halone : Alone table key) :
    ∃ after, session.run (stepsOf operation calls) =
        ((answers answer state calls).1, { session with engine := .ofTable after }) ∧
      stands (steps + calls.length) (answers answer state calls).2 after ∧ Alone after key := by
  induction calls generalizing session steps state table with
  | nil =>
      refine ⟨table, ?_, hstands, halone⟩
      rw [← hengine]
      rfl
  | cons call calls ih =>
      rw [List.length_cons] at hsteps
      obtain ⟨hcall, hrest⟩ := List.forall_mem_cons.mp hallowed
      obtain ⟨between, hstep, hbetween, hbetweenAlone, _⟩ :=
        h.perform hengine hcall (by omega) hstands halone
      obtain ⟨after, hrun, hafter, hafterAlone⟩ :=
        @ih { session with engine := .ofTable between } (steps + 1) (answer call state).2 between
          rfl hrest (by omega) hbetween hbetweenAlone
      have hcount : steps + (call :: calls).length = steps + 1 + calls.length := by
        rw [List.length_cons]
        omega
      refine ⟨after, ?_, hcount ▸ hafter, hafterAlone⟩
      unfold stepsOf at hrun ⊢
      rw [List.map_cons, Session.run, Session.step, hstep]
      dsimp only
      rw [hrun]
      rfl

/-- From an empty table a session runs as the abstract structure does. -/
theorem runsAs (h : Refines key operation answer allowed idle stands)
    {layout : State → Table → Prop} {start : State} {session : Session} {calls : List Call}
    (hengine : session.engine = .ofTable .empty) (hallowed : ∀ call ∈ calls, allowed call)
    (hcount : calls.length < 9223372036854775808) (hstart : stands 0 start .empty)
    (hlayout : ∀ steps state table, stands steps state table → Alone table key →
      layout state table) :
    RunsAs session operation answer idle layout start calls := by
  have halone : Alone .empty key := fun physical hget => absurd (Table.get?_empty physical) hget
  obtain ⟨after, hrun, hafter, hafterAlone⟩ :=
    h.run calls hengine hallowed (by omega) hstart halone
  refine ⟨by rw [hrun], ⟨after, by rw [hrun], hlayout _ _ _ hafter hafterAlone⟩, ?_⟩
  rintro front call back rfl hidle
  rw [List.length_append, List.length_cons] at hcount
  obtain ⟨hfront, hback⟩ := List.forall_mem_append.mp hallowed
  obtain ⟨between, hrunFront, hbetween, hbetweenAlone⟩ :=
    h.run front hengine hfront (by omega) hstart halone
  rw [hrunFront]
  obtain ⟨after, hstep, _, _, hsame⟩ := @perform _ _ _ _ _ _ _ _ h
    { session with engine := .ofTable between } (0 + front.length) _ between call rfl
    (hback call List.mem_cons_self) (by omega) hbetween hbetweenAlone
  rw [hstep, hsame hidle]

end Refines
end Runs

/-! ## Finite maps -/

section FiniteMaps

variable {ι α : Type} [DecidableEq ι] [DecidableEq α] {along : ι → α}
  {entries : Finmap fun _ : α => Value}

/-- The values of a finite map along a function, with one entry more. -/
theorem lookup_insert_along (hinjective : Function.Injective along)
    (entries : Finmap fun _ : α => Value) (i : ι) (value : Value) :
    (fun j => (entries.insert (along i) value).lookup (along j)) =
      Function.update (fun j => entries.lookup (along j)) i (some value) := by
  funext j
  rw [Function.update_apply]
  split
  · rename_i heq
    rw [heq, Finmap.lookup_insert]
  · rename_i hne
    rw [Finmap.lookup_insert_of_ne entries (hinjective.ne hne)]

/-- The values of a finite map along a function, with one entry less. -/
theorem lookup_erase_along (hinjective : Function.Injective along)
    (entries : Finmap fun _ : α => Value) (i : ι) :
    (fun j => (entries.erase (along i)).lookup (along j)) =
      Function.update (fun j => entries.lookup (along j)) i none := by
  funext j
  rw [Function.update_apply]
  split
  · rename_i heq
    rw [heq, Finmap.lookup_erase]
  · rename_i hne
    rw [Finmap.lookup_erase_ne (hinjective.ne hne)]

/-- Without an entry there is nothing to take out. -/
theorem erase_eq_self_of_lookup {a : α} (h : entries.lookup a = none) :
    entries.erase a = entries := by
  apply Finmap.ext_lookup
  intro other
  by_cases heq : other = a
  · rw [heq, Finmap.lookup_erase, h]
  · rw [Finmap.lookup_erase_ne heq]

end FiniteMaps

/-! ## Maps and sets -/

/-- Whether the table holds the values as the items of a map or set at a key,
reached within a number of steps, or nothing if there is no such structure. -/
def Stands (key : String) (counted : Counted) (steps : Nat) :
    Option (String → Option Value) → Table → Prop
  | none, table => table.Vacant key
  | some values, table => ∃ count : UInt64, count.toNat ≤ steps ∧
      Tallied table key counted.marker counted.metadata count none ∧
      Named table key counted.marker values

/-- Whether the rows of a table are those of one map or set with the given
names: the metadata with their number, and an item for each of them. -/
def LaidOut (key : String) (counted : Counted) (names : Finset String)
    (values : String → Option Value) (table : Table) : Prop :=
  table.HasFrame (Key.ofText key) ⟨counted.metadata (UInt64.ofNat names.card), none⟩ ∧
    (∀ physical, table.get? physical ≠ none ↔ physical = Key.ofText key ∨
      ∃ name ∈ names, physical = Key.namedItem key counted.marker name) ∧
    ∀ name value, values name = some value →
      table.HasFrame (Key.namedItem key counted.marker name) ⟨value, none⟩

section Structures

variable {key : String} {counted : Counted} {table : Table} {steps : Nat} {count : UInt64}
  {names : Finset String} {values : String → Option Value}

/-- The rows that belong to the key of a structure are its metadata and one item for
each thing with a value. -/
theorem Store.Placed.get?_ne_none_iff {ι : Type} {marker : Key.Marker} {place : ι → Bytes}
    {values : ι → Option Value} {metadata : UInt64 → Value} {expireAt : Option Instant}
    {physical : Bytes}
    (hplaced : Placed table key marker place values)
    (htallied : Tallied table key marker metadata count expireAt)
    (howns : table.get? physical ≠ none → Key.Owns key physical) :
    table.get? physical ≠ none ↔
      physical = Key.ofText key ∨ ∃ i, values i ≠ none ∧ physical = place i := by
  constructor
  · intro hget
    obtain rfl | ⟨other, hstem⟩ := howns hget
    · exact Or.inl rfl
    · by_cases hmarker : other = marker
      · subst hmarker
        obtain ⟨i, rfl⟩ := hplaced.is_place physical hstem hget
        rw [ne_eq, hplaced.get?_eq_none_iff] at hget
        exact Or.inr ⟨i, hget, rfl⟩
      · have hbare := htallied.bare other hmarker
        exact absurd ((Table.countUnder_eq_zero_iff table _).mp hbare physical hstem) hget
  · rintro (rfl | ⟨i, hvalue, rfl⟩)
    · exact htallied.frame.get?_ne_none
    · rwa [ne_eq, hplaced.get?_eq_none_iff]

/-- The number of names is the count. -/
theorem Store.Named.count_eq {marker : Key.Marker} {metadata : UInt64 → Value}
    {expireAt : Option Instant}
    (hnamed : Named table key marker values)
    (htallied : Tallied table key marker metadata count expireAt)
    (hnames : ∀ name, name ∈ names ↔ values name ≠ none) : count = UInt64.ofNat names.card := by
  rw [← hnamed.countUnder_eq hnames, htallied.rows, UInt64.ofNat_toNat]

/-- A table that holds nothing but one map or set is laid out as such. -/
theorem Stands.laidOut (h : Stands key counted steps (some values) table)
    (halone : Alone table key) (hnames : ∀ name, name ∈ names ↔ values name ≠ none) :
    LaidOut key counted names values table := by
  obtain ⟨count, _, htallied, hnamed⟩ := h
  refine ⟨?_, fun physical => ?_, fun name value hvalue => hnamed.hasFrame hvalue⟩
  · rw [← hnamed.count_eq htallied hnames]
    exact htallied.frame
  · rw [hnamed.placed.get?_ne_none_iff htallied (halone physical)]
    simp only [hnames]

/-- A table that holds nothing but what belongs to a key, and nothing of that, is
empty. -/
theorem Table.Vacant.eq_empty (h : table.Vacant key) (halone : Alone table key) :
    table = .empty := by
  apply Table.ext_get?
  intro physical
  rw [Table.get?_empty]
  by_contra hget
  exact hget (h physical (halone physical hget))

theorem stands_empty (key : String) (counted : Counted) : Stands key counted 0 none .empty :=
  fun physical _ => Table.get?_empty physical

/-! ## Shared operations -/

/-- A new map or set has no items. -/
theorem ends_create_stands (counted : Counted) (steps : Nat) (hkey : Key.isReserved key = false)
    (hvacant : table.Vacant key) :
    Ends table (Store.create key (counted.metadata 0)) fun outcome after =>
      outcome = .ok () ∧ Stands key counted (steps + 1) (some fun _ => none) after := by
  refine (ends_create_tallied (Counts.counted counted) hkey hvacant).conseq ?_
  rintro outcome after ⟨rfl, htallied⟩
  refine ⟨rfl, 0, Nat.zero_le _, htallied, .of_placed ?_⟩
  exact .of_countUnder_eq_zero (Named.places key counted.marker) htallied.rows

end Structures
end StructuredStore
