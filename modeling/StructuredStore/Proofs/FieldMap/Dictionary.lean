import StructuredStore.Proofs.Store.Refinement

/-!
# Maps are finite maps

A map, worked on by any run of operations, answers what a finite map from texts
to values answers.

Main results:

- `Call.answer`: what a finite map answers and becomes.
- `refines`: the operations on a map do what the finite map does.
-/

namespace StructuredStore.FieldMap

open Engine Store
open Operation (ends_silent)
open Deque (Survives)

/-- A finite map from fields to values. -/
abbrev Dictionary := Finmap fun _ : String => Value

/-! ## Operations on one map -/

/-- An operation on a map. -/
inductive Call where
  | create
  | set (field : String) (value : Value)
  | get (field : String)
  | contains (field : String)
  | remove (field : String)
  | size
  | entries
  | fields
  | values
  | delete

/-- All entries of a finite map, in increasing order of the bytes of the fields. -/
def listing (dictionary : Dictionary) : List (String × Value) :=
  (Utf8.inOrder dictionary.keys).filterMap fun field =>
    (dictionary.lookup field).map fun value => (field, value)

/-- The number of entries of a finite map, as a reply. -/
def counted (dictionary : Dictionary) : Except StoreError Reply :=
  .ok (.count (UInt64.ofNat dictionary.keys.card))

namespace Call

/-- The operation of the store on the map at a key. -/
def operation (key : String) : Call → Operation
  | create => .mapCreate key
  | set field value => .mapSet key field value
  | get field => .mapGet key field
  | contains field => .mapContains key field
  | remove field => .mapRemove key field
  | size => .mapSize key
  | entries => .mapEntries key
  | fields => .mapFields key
  | values => .mapValues key
  | delete => .mapDelete key

/-- The value that an operation puts into the map, if any. -/
def value? : Call → Option Value
  | set _ value => some value
  | _ => none

/-- What an operation answers on a finite map, and the map after it; there may be
none. -/
def answer : Call → Option Dictionary → Except StoreError Reply × Option Dictionary
  | create, none => (.ok .done, some ∅)
  | create, some dictionary => (.error .alreadyExists, some dictionary)
  | _, none => (.error .notFound, none)
  | set field value, some dictionary =>
      (counted (dictionary.insert field value), some (dictionary.insert field value))
  | get field, some dictionary =>
      (match dictionary.lookup field with
        | none => .error .notFound
        | some value => .ok (.value value), some dictionary)
  | contains field, some dictionary =>
      (.ok (.flag (decide (field ∈ dictionary))), some dictionary)
  | remove field, some dictionary =>
      (counted (dictionary.erase field), some (dictionary.erase field))
  | size, some dictionary => (counted dictionary, some dictionary)
  | entries, some dictionary => (.ok (.entries (listing dictionary)), some dictionary)
  | fields, some dictionary =>
      (.ok (.names (Utf8.inOrder dictionary.keys)), some dictionary)
  | values, some dictionary =>
      (.ok (.values ((listing dictionary).map (·.2))), some dictionary)
  | delete, some _ => (.ok .done, none)

/-- Whether a call writes no value and leaves the finite map as it is. -/
def Idle (call : Call) (state : Option Dictionary) : Prop :=
  call.value? = none ∧ (call.answer state).2 = state

end Call

/-! ## Finite maps -/

/-- The values under the fields of a finite map. -/
def lookups (dictionary : Dictionary) (field : String) : Option Value :=
  dictionary.lookup field

theorem mem_keys_iff (dictionary : Dictionary) (field : String) :
    field ∈ dictionary.keys ↔ lookups dictionary field ≠ none := by
  rw [Finmap.mem_keys, lookups, ne_eq, Finmap.lookup_eq_none, not_not]

theorem lookups_insert (dictionary : Dictionary) (field : String) (value : Value) :
    lookups (dictionary.insert field value) =
      Function.update (lookups dictionary) field (some value) :=
  lookup_insert_along Function.injective_id dictionary field value

theorem lookups_erase (dictionary : Dictionary) (field : String) :
    lookups (dictionary.erase field) = Function.update (lookups dictionary) field none :=
  lookup_erase_along Function.injective_id dictionary field

theorem lookups_empty : lookups ∅ = fun _ => none := by
  funext field
  exact Finmap.lookup_empty field

/-- The fields of the listing are the fields of the finite map. -/
theorem map_fst_listing (dictionary : Dictionary) :
    (listing dictionary).map (·.1) = Utf8.inOrder dictionary.keys := by
  rw [listing, List.map_filterMap]
  have hmem : ∀ field ∈ Utf8.inOrder dictionary.keys,
      ((dictionary.lookup field).map fun value => (field, value)).map (·.1) = some field := by
    intro field hfield
    have hlookup := (mem_keys_iff dictionary field).mp (Utf8.mem_inOrder.mp hfield)
    obtain ⟨value, hvalue⟩ := Option.ne_none_iff_exists'.mp hlookup
    rw [lookups] at hvalue
    rw [hvalue]
    rfl
  rw [List.filterMap_congr hmem, List.filterMap_some]

/-! ## Single operations -/

section Steps

variable {table : Table} {key : String} {steps : Nat} {count : UInt64} {dictionary : Dictionary}

/-- Whether the table holds the finite map at a key. -/
def Holds (key : String) (steps : Nat) (state : Option Dictionary) (table : Table) : Prop :=
  Stands key .map steps (state.map lookups) table

/-- What is answered, what is left, and that nothing changed if nothing had to. -/
def Answered (key : String) (steps : Nat) (state : Option Dictionary) (call : Call)
    (table : Table) (outcome : Except StoreError Reply) (after : Table) : Prop :=
  outcome = (call.answer state).1 ∧ Holds key (steps + 1) (call.answer state).2 after ∧
    (call.Idle state → after = table)

/-- Where there is no map, all operations but the creation fail. -/
theorem ends_call_absent (env : Environment) (hkey : Key.isReserved key = false)
    (h : table.Vacant key) (call : Call) :
    Ends table ((call.operation key).perform env) (Answered key steps none call table) := by
  have habsent := h _ (.self key)
  have hread : (readCount key .map).run (ofTable table) = (.error .notFound, ofTable table) :=
    run_readCount_absent habsent
  have hfails : call ≠ .create → Answered key steps none call table (.error .notFound) table := by
    intro hcall
    cases call with
    | create => exact absurd rfl hcall
    | _ => exact ⟨rfl, h, fun _ => rfl⟩
  cases call with
  | create =>
      refine ends_silent ((ends_create_stands .map steps hkey h).conseq ?_)
      rintro outcome after ⟨rfl, hafter⟩
      exact ⟨rfl, by simpa [Holds, Call.answer, lookups_empty] using hafter,
        fun hidle => by cases hidle.2⟩
  | delete => exact ends_silent (.bind_error (run_readAs_none .map habsent) (hfails nofun))
  | fields => exact .map _ (.map _ (.bind_error hread (hfails nofun)))
  | values => exact .map _ (.map _ (.bind_error hread (hfails nofun)))
  | _ => exact .map _ (.bind_error hread (hfails nofun))

/-- The entries are listed. -/
theorem run_entries (htallied : Tallied table key .map .map count none)
    (hnamed : Named table key .map (lookups dictionary)) :
    (entries key).run (ofTable table) = (.ok (listing dictionary), ofTable table) := by
  have hentries : (table.rowsUnder (Key.itemStem key .map)).mapM (readEntry key) =
      .ok (listing dictionary) := by
    apply hnamed.mapM_rowsUnder (mem_keys_iff dictionary)
    intro field value contents hvalue hdecode
    refine ⟨(field, value), by rw [lookups] at hvalue; rw [hvalue]; rfl, ?_⟩
    rw [readEntry, Key.decode?_drop_namedItem, hdecode]
    rfl
  rw [entries, run_bind_ok (run_readCount htallied.frame), run_bind_ok (run_scan table _)]
  exact run_lift_ok hentries _

/-- An operation that leaves the finite map and the rows as they are. -/
theorem answered_same {call : Call} {outcome : Except StoreError Reply}
    (h : Holds key (steps + 1) (some dictionary) table)
    (hanswer : call.answer (some dictionary) = (outcome, some dictionary)) :
    Answered key steps (some dictionary) call table outcome table := by
  rw [Answered, hanswer]
  exact ⟨rfl, h, fun _ => rfl⟩

/-- An operation that answers the number of entries that it leaves. -/
theorem answered_counted {call : Call} {after : Table} {next : UInt64} {changed : Dictionary}
    (hnext : next.toNat ≤ steps + 1) (htallied : Tallied after key .map .map next none)
    (hnamed : Named after key .map (lookups changed))
    (hanswer : call.answer (some dictionary) = (counted changed, some changed))
    (hidle : call.value? = none → changed = dictionary → after = table) :
    Answered key steps (some dictionary) call table (.ok (.count next)) after := by
  rw [Answered, Call.Idle, hanswer]
  refine ⟨?_, ⟨next, hnext, htallied, hnamed⟩, fun hnone => hidle hnone.1 (Option.some.inj hnone.2)⟩
  rw [counted, ← hnamed.count_eq htallied (mem_keys_iff changed)]

section Present

variable {field : String} {value : Value} (hcount : count.toNat ≤ steps)
  (htallied : Tallied table key .map .map count none)
  (hnamed : Named table key .map (lookups dictionary))
include hcount htallied hnamed

theorem ends_set (hsteps : steps + 1 < 9223372036854775808) (hvalue : Survives value) :
    Ends table (Reply.count <$> set key field value)
      (Answered key steps (some dictionary) (.set field value) table) := by
  obtain ⟨item, hencode, hdecode⟩ := hvalue
  refine .map _ (.bind_run (run_readCount htallied.frame)
    ((hnamed.placed.ends_putItem htallied (by omega) field hencode hdecode).conseq ?_))
  rintro outcome after ⟨next, rfl, hnext, htallied', hplaced⟩
  rw [← lookups_insert] at hplaced
  exact answered_counted (by omega) htallied' (.of_placed hplaced) rfl fun hnone => nomatch hnone

theorem ends_get :
    Ends table (Reply.value <$> get key field)
      (Answered key steps (some dictionary) (.get field) table) := by
  have hsame : Holds key (steps + 1) (some dictionary) table :=
    ⟨count, by omega, htallied, hnamed⟩
  refine .map _ (.bind_run (run_readCount htallied.frame) ?_)
  cases hlookup : dictionary.lookup field with
  | none =>
      refine .bind_error (run_bind_ok (run_read_none (hnamed.get?_eq_none_iff.mpr hlookup)))
        (answered_same hsame ?_)
      rw [Call.answer, hlookup]
      rfl
  | some value =>
      refine .bind_run (run_readExisting (hnamed.hasFrame hlookup)) (.pure (answered_same hsame ?_))
      rw [Call.answer, hlookup]
      rfl

theorem ends_remove :
    Ends table (Reply.count <$> remove key field)
      (Answered key steps (some dictionary) (.remove field) table) := by
  refine .map _ (.bind_run (run_readCount htallied.frame)
    ((hnamed.placed.ends_takeItem htallied field).conseq ?_))
  rintro outcome after ⟨next, rfl, hnext, htallied', hafter⟩
  split at hafter
  · rename_i hnone
    have herase := erase_eq_self_of_lookup (Option.isNone_iff_eq_none.mp hnone)
    subst hafter
    refine answered_counted (by omega) htallied' hnamed ?_ fun _ _ => rfl
    rw [Call.answer, herase]
  · rename_i hsome
    rw [← lookups_erase] at hafter
    refine answered_counted (by omega) htallied' (.of_placed hafter) rfl fun _ hstate => ?_
    have hlookup := congrArg (Finmap.lookup field) hstate
    rw [Finmap.lookup_erase] at hlookup
    exact absurd (Option.isNone_iff_eq_none.mpr hlookup.symm) hsome

/-- An operation on a map answers what the finite map answers, and leaves what
the finite map becomes. -/
theorem ends_call_present (env : Environment) (hkey : Key.isReserved key = false)
    (hsteps : steps + 1 < 9223372036854775808) {call : Call}
    (hvalue : ∀ value, call.value? = some value → Survives value) :
    Ends table ((call.operation key).perform env)
      (Answered key steps (some dictionary) call table) := by
  have hread : (readCount key .map).run (ofTable table) = (.ok (count, none), ofTable table) :=
    run_readCount htallied.frame
  have hsame : Holds key (steps + 1) (some dictionary) table :=
    ⟨count, by omega, htallied, hnamed⟩
  cases call with
  | create =>
      exact ends_silent (.of_run (run_create_taken hkey htallied.frame.get?_ne_none _)
        (answered_same hsame rfl))
  | set field value => exact ends_set hcount htallied hnamed hsteps (hvalue value rfl)
  | get field => exact ends_get hcount htallied hnamed
  | contains field =>
      have hflag : decide (field ∈ dictionary) =
          (table.get? (Key.namedItem key .map field)).isSome := by
        rw [hnamed.isSome_get?, lookups, Bool.eq_iff_iff, Finmap.lookup_isSome, decide_eq_true_iff]
      refine .map _ (.bind_run hread (.bind_run (run_get table _) (.pure (answered_same hsame ?_))))
      rw [Call.answer, hflag]
      rfl
  | remove field => exact ends_remove hcount htallied hnamed
  | size =>
      exact .map _ (.bind_run hread (.pure (answered_counted (Nat.le_succ_of_le hcount) htallied
        hnamed rfl fun _ _ => rfl)))
  | entries =>
      exact .map _ (.of_run (run_entries htallied hnamed) (answered_same hsame rfl))
  | fields =>
      refine .map _ (.map _ (.of_run (run_entries htallied hnamed) (answered_same hsame ?_)))
      rw [Call.answer, ← map_fst_listing]
      rfl
  | values =>
      exact .map _ (.map _ (.of_run (run_entries htallied hnamed) (answered_same hsame rfl)))
  | delete =>
      refine ends_silent ((htallied.ends_deleteAs rfl).conseq ?_)
      rintro outcome after ⟨rfl, hafter⟩
      exact ⟨rfl, hafter, fun hidle => by cases hidle.2⟩

end Present

/-- Whether the rows of a table are those of one map with the entries of a finite
map, or there are none. -/
def Laid (key : String) : Option Dictionary → Table → Prop
  | none, table => table = .empty
  | some dictionary, table => LaidOut key .map dictionary.keys (lookups dictionary) table

theorem Holds.laid {state : Option Dictionary} (h : Holds key steps state table)
    (halone : Deque.Alone table key) : Laid key state table := by
  cases state with
  | none => exact Table.Vacant.eq_empty h halone
  | some dictionary => exact Stands.laidOut h halone (mem_keys_iff dictionary)

/-- The operations on a map refine those on a finite map. -/
theorem refines (key : String) (hkey : Key.isReserved key = false) :
    Refines key (Call.operation key) Call.answer
      (fun call => ∀ value, call.value? = some value → Survives value) Call.Idle (Holds key) := by
  refine ⟨fun call => by cases call <;> rfl, fun call => by cases call <;> rfl, ?_⟩
  intro env steps state table call hvalue hsteps hholds
  cases state with
  | none => exact ends_call_absent env hkey hholds call
  | some dictionary =>
      obtain ⟨count, hcount, htallied, hnamed⟩ := hholds
      exact ends_call_present hcount htallied hnamed env hkey hsteps hvalue

end Steps
end StructuredStore.FieldMap
