import StructuredStore.Engine.Basic
import StructuredStore.Proofs.Engine.Contents

/-!
# Running store computations

How a computation of the store runs, step by step, and which keys it can touch.
A computation is confined to a set of keys if it changes no other key whatever
calls fail; without planned failures it also plans none.

Main results:

- `run_bind_ok`, `run_bind_error`: a sequence runs its second step on what the
  first one leaves, or ends with the first one's failure.
- `exists_of_run_bind_ok`, `cases_of_run_bind_error`: a sequence that has run,
  taken apart.
- `Confined.bind`: a sequence of confined steps is confined.
- `Confined.run_ofTable`: from a table without failures a confined computation
  ends at such a table, which agrees with the first one on all other keys.
-/

namespace StructuredStore

/-- Whether two tables agree on every key outside the given ones. -/
def Table.AgreeOff (keys : Bytes → Prop) (a b : Table) : Prop :=
  ∀ key, ¬ keys key → b.get? key = a.get? key

namespace Table.AgreeOff

theorem refl (keys : Bytes → Prop) (table : Table) : AgreeOff keys table table :=
  fun _ _ => rfl

theorem trans {keys : Bytes → Prop} {a b c : Table} (hab : AgreeOff keys a b)
    (hbc : AgreeOff keys b c) : AgreeOff keys a c :=
  fun key hkey => (hbc key hkey).trans (hab key hkey)

/-- Agreement outside fewer keys is agreement outside more keys. -/
theorem mono {keys more : Bytes → Prop} {a b : Table} (hsub : ∀ key, keys key → more key)
    (h : AgreeOff keys a b) : AgreeOff more a b :=
  fun key hkey => h key fun hin => hkey (hsub key hin)

/-- A row that may change is written. -/
theorem insert {keys : Bytes → Prop} {key : Bytes} (hkey : keys key) (table : Table)
    (contents : Bytes) : AgreeOff keys table (table.insert key contents) :=
  fun _ hother => get?_insert_of_ne table contents fun heq => hother (heq ▸ hkey)

/-- A row that may change is removed. -/
theorem erase {keys : Bytes → Prop} {key : Bytes} (hkey : keys key) (table : Table) :
    AgreeOff keys table (table.erase key) :=
  fun _ hother => get?_erase_of_ne table fun heq => hother (heq ▸ hkey)

/-- Tables that agree on every key are equal. -/
theorem eq {a b : Table} (h : AgreeOff (fun _ => False) a b) : b = a :=
  ext_get? fun key => h key id

end Table.AgreeOff

namespace Engine

variable {α β : Type}

/-! ## One step after the other -/

/-- An answer leaves the engine as it is. -/
@[simp]
theorem run_pure (a : α) (engine : Engine) :
    (pure a : StoreM α).run engine = (.ok a, engine) := rfl

/-- A sequence goes on with what its first step answers and leaves, or ends with its
failure. -/
theorem run_bind {ε : Type} (first : ExceptT ε (StateM Engine) α)
    (next : α → ExceptT ε (StateM Engine) β) (engine : Engine) :
    (first >>= next).run engine =
      match first.run engine with
      | (.ok a, left) => (next a).run left
      | (.error e, left) => (.error e, left) := by
  simp only [bind, ExceptT.bind, ExceptT.bindCont, ExceptT.run, ExceptT.mk, StateT.bind]
  rcases first engine with ⟨_ | _, left⟩ <;> rfl

/-- An answer is changed behind the run. -/
theorem run_map {ε : Type} (f : α → β) (action : ExceptT ε (StateM Engine) α) (engine : Engine) :
    (f <$> action).run engine =
      ((action.run engine).1.map f, (action.run engine).2) := by
  simp only [Functor.map, ExceptT.map, ExceptT.run, ExceptT.mk, bind, StateT.bind]
  rcases action engine with ⟨_ | _, left⟩ <;> rfl

/-- A run with a known outcome leaves some engine. -/
theorem exists_run_eq {action : StoreM α} {engine : Engine} {outcome : Except StoreError α}
    (h : (action.run engine).1 = outcome) : ∃ left, action.run engine = (outcome, left) :=
  ⟨(action.run engine).2, Prod.ext h rfl⟩

/-- A sequence whose first step succeeds goes on with the second step. -/
theorem run_bind_ok {ε : Type} {first : ExceptT ε (StateM Engine) α}
    {next : α → ExceptT ε (StateM Engine) β} {engine left : Engine} {a : α}
    (h : first.run engine = (.ok a, left)) : (first >>= next).run engine = (next a).run left := by
  rw [run_bind, h]

/-- A sequence whose first step fails ends there. -/
theorem run_bind_error {ε : Type} {first : ExceptT ε (StateM Engine) α}
    {next : α → ExceptT ε (StateM Engine) β} {engine left : Engine} {e : ε}
    (h : first.run engine = (.error e, left)) : (first >>= next).run engine = (.error e, left) := by
  rw [run_bind, h]

/-- A sequence that succeeds consists of steps that do. -/
theorem exists_of_run_bind_ok {ε : Type} {first : ExceptT ε (StateM Engine) α}
    {next : α → ExceptT ε (StateM Engine) β} {engine after : Engine} {b : β}
    (h : (first >>= next).run engine = (.ok b, after)) :
    ∃ a left, first.run engine = (.ok a, left) ∧ (next a).run left = (.ok b, after) := by
  rcases hfirst : first.run engine with ⟨e | a, left⟩
  · rw [run_bind_error hfirst] at h
    cases h
  · rw [run_bind_ok hfirst] at h
    exact ⟨a, left, rfl, h⟩

/-- A sequence that fails does so in its first step or behind it. -/
theorem cases_of_run_bind_error {ε : Type} {first : ExceptT ε (StateM Engine) α}
    {next : α → ExceptT ε (StateM Engine) β} {engine after : Engine} {e : ε}
    (h : (first >>= next).run engine = (.error e, after)) :
    first.run engine = (.error e, after) ∨
      ∃ a left, first.run engine = (.ok a, left) ∧ (next a).run left = (.error e, after) := by
  rcases hfirst : first.run engine with ⟨fault | a, left⟩
  · rw [run_bind_error hfirst] at h
    cases h
    exact Or.inl rfl
  · rw [run_bind_ok hfirst] at h
    exact Or.inr ⟨a, left, rfl, h⟩

/-- A visit without planned failures collects from the rows under its stem. -/
@[simp]
theorem run_visitUnder {σ : Type} (table : Table) (stem : Bytes)
    (visit : σ → Row → σ × Table.Visit) (start : σ) :
    (visitUnder stem visit start).run (ofTable table) =
      (.ok (Table.visitRows visit start (table.rowsUnder stem)), ofTable table) := rfl

/-! ## Confined computations -/

/-- Whether a computation leaves every key outside the given ones as it is,
whichever calls fail, and plans no failures by itself. -/
structure Confined (keys : Bytes → Prop) (action : StoreM α) : Prop where
  agree : ∀ engine : Engine, engine.table.AgreeOff keys (action.run engine).2.table
  quiet : ∀ engine : Engine, engine.faults = none → (action.run engine).2.faults = none

/-- Whether a computation writes nothing. -/
abbrev ReadOnly (action : StoreM α) : Prop :=
  Confined (fun _ => False) action

namespace Confined

variable {keys : Bytes → Prop}

/-- What is confined to some keys is confined to more. -/
theorem mono {more : Bytes → Prop} {action : StoreM α} (hsub : ∀ key, keys key → more key)
    (h : Confined keys action) : Confined more action :=
  ⟨fun engine => (h.agree engine).mono hsub, h.quiet⟩

/-- What writes nothing is confined to any keys. -/
theorem of_readOnly {action : StoreM α} (h : ReadOnly action) : Confined keys action :=
  h.mono fun _ hkey => hkey.elim

/-- An answer changes nothing. -/
protected theorem pure (a : α) : Confined keys (pure a : StoreM α) :=
  ⟨fun engine => .refl keys engine.table, fun _ h => h⟩

/-- A failure changes nothing. -/
protected theorem throw (e : StoreError) : Confined keys (throw e : StoreM α) :=
  ⟨fun engine => .refl keys engine.table, fun _ h => h⟩

/-- Both steps of a sequence stay with the keys. -/
protected theorem bind {first : StoreM α} {next : α → StoreM β} (hfirst : Confined keys first)
    (hnext : ∀ a, Confined keys (next a)) : Confined keys (first >>= next) := by
  constructor
  · intro engine
    rw [run_bind]
    have hagree := hfirst.agree engine
    rcases hrun : first.run engine with ⟨_ | a, left⟩
    · simpa [hrun] using hagree
    · rw [hrun] at hagree
      exact hagree.trans ((hnext a).agree left)
  · intro engine hquiet
    rw [run_bind]
    have hleft := hfirst.quiet engine hquiet
    rcases hrun : first.run engine with ⟨_ | a, left⟩
    · simpa [hrun] using hleft
    · rw [hrun] at hleft
      exact (hnext a).quiet left hleft

/-- An answer that is changed afterwards. -/
protected theorem map {action : StoreM α} (f : α → β) (h : Confined keys action) :
    Confined keys (f <$> action) := by
  constructor
  · intro engine
    rw [run_map]
    exact h.agree engine
  · intro engine hquiet
    rw [run_map]
    exact h.quiet engine hquiet

/-- Both sides of a choice stay with the keys. -/
protected theorem ite {c : Prop} [Decidable c] {a b : StoreM α} (ha : Confined keys a)
    (hb : Confined keys b) : Confined keys (if c then a else b) := by
  split
  · exact ha
  · exact hb

/-- A check that may end the computation is confined if what follows is. -/
protected theorem guard {c : Prop} [Decidable c] {e : StoreError} {next : α → StoreM β}
    {go : StoreM β} (h : Confined keys go) : Confined keys (if c then throw e >>= next else go) :=
  .ite (.throw e) h

/-- A call is confined to the keys that its effect changes. -/
theorem perform {call : Call} {effect : Table → α × Table}
    (h : ∀ table : Table, table.AgreeOff keys (effect table).2) :
    Confined keys (perform call effect) := by
  constructor
  · intro engine
    simp only [Engine.perform, ExceptT.run, ExceptT.mk]
    cases engine.verdict call with
    | pass => exact h engine.table
    | failBefore => exact .refl keys engine.table
    | failAfter => exact h engine.table
  · intro engine hquiet
    simp only [Engine.perform, ExceptT.run, ExceptT.mk]
    cases engine.verdict call <;> simp [record, hquiet]

/-- A read changes nothing. -/
protected theorem get (key : Bytes) : Confined keys (get key) :=
  perform fun table => .refl keys table

/-- A scan changes nothing. -/
protected theorem scan (stem : Bytes) : Confined keys (scan stem) :=
  perform fun table => .refl keys table

/-- What follows a scan may rely on having been given rows under the stem. -/
theorem bind_scan {stem : Bytes} {next : List Row → StoreM β}
    (h : ∀ rows : List Row, (∀ row ∈ rows, stem <+: row.1) → Confined keys (next rows)) :
    Confined keys (Engine.scan stem >>= next) := by
  have hrun : ∀ engine : Engine, ∃ left, engine.table.AgreeOff keys left.table ∧
      (engine.faults = none → left.faults = none) ∧
      ((Engine.scan stem >>= next).run engine = (.error (.io .injected), left) ∨
        (Engine.scan stem >>= next).run engine =
          (next (engine.table.rowsUnder stem)).run left) := by
    intro engine
    refine ⟨engine.record .scan, .refl keys engine.table, fun hquiet => by simp [record, hquiet], ?_⟩
    rw [run_bind]
    simp only [Engine.scan, Engine.perform, ExceptT.run, ExceptT.mk]
    cases engine.verdict .scan with
    | pass => exact Or.inr rfl
    | failBefore => exact Or.inl rfl
    | failAfter => exact Or.inl rfl
  have hrows : ∀ engine : Engine, Confined keys (next (engine.table.rowsUnder stem)) :=
    fun engine => h _ fun row hrow => ((Table.mem_rowsUnder _ _ row).mp hrow).2
  constructor
  · intro engine
    obtain ⟨left, hagree, _, hfail | hnext⟩ := hrun engine
    · rw [hfail]
      exact hagree
    · rw [hnext]
      exact hagree.trans ((hrows engine).agree left)
  · intro engine hquiet
    obtain ⟨left, _, hleft, hfail | hnext⟩ := hrun engine
    · rw [hfail]
      exact hleft hquiet
    · rw [hnext]
      exact (hrows engine).quiet left (hleft hquiet)

/-- Flushing changes no rows. -/
protected theorem flush : Confined keys flush :=
  perform fun table => .refl keys table

/-- A visit changes nothing. -/
protected theorem visitUnder {σ : Type} (stem : Bytes) (visit : σ → Row → σ × Table.Visit)
    (start : σ) : Confined keys (visitUnder stem visit start) :=
  perform fun table => .refl keys table

/-- A write changes the row of its key. -/
protected theorem set {key : Bytes} (hkey : keys key) (contents : Bytes) :
    Confined keys (set key contents) :=
  perform fun table => .insert hkey table contents

/-- A deletion changes the row of its key. -/
protected theorem delete {key : Bytes} (hkey : keys key) : Confined keys (delete key) :=
  perform fun table => .erase hkey table

/-- A confined computation that starts without planned failures ends without
them, and with the same contents at all other keys. -/
theorem run_ofTable {action : StoreM α} (h : Confined keys action) (table : Table) :
    ∃ outcome after, action.run (ofTable table) = (outcome, ofTable after) ∧
      table.AgreeOff keys after := by
  have hagree := h.agree (ofTable table)
  have hquiet := h.quiet (ofTable table) rfl
  rcases hrun : action.run (ofTable table) with ⟨outcome, ⟨after, faults⟩⟩
  rw [hrun] at hagree hquiet
  cases hquiet
  exact ⟨outcome, after, rfl, hagree⟩

end Confined

/-- What writes nothing leaves the table as it was. -/
theorem ReadOnly.run_ofTable {action : StoreM α} (h : ReadOnly action) (table : Table) :
    ∃ outcome, action.run (ofTable table) = (outcome, ofTable table) := by
  obtain ⟨outcome, after, hrun, hagree⟩ := Confined.run_ofTable h table
  exact ⟨outcome, by rw [hrun, hagree.eq]⟩

end Engine
end StructuredStore
