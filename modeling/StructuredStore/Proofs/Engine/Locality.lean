import StructuredStore.Proofs.Engine.Execution

/-!
# Computations that look at some keys only

A computation is local to a set of keys if it writes nothing and its outcome is
settled by what lies at those keys.  Locality is put together step by step, as
confinement is, and a computation that is confined elsewhere does not change
what a local one answers.  A computation that writes may still be settled by
some keys: it answers the same on tables that agree there, and they agree there
again.

Main results:

- `Local.bind`: a sequence of local steps is local.
- `Local.of_agreeOff`: a local computation answers the same after a change of
  other keys.
- `Mirrors.bind`: computations that write alike where the tables are alike.
-/

namespace StructuredStore

/-- Whether two tables hold the same at each of the given keys. -/
def Table.AgreeOn (keys : Bytes → Prop) (a b : Table) : Prop :=
  ∀ key, keys key → a.get? key = b.get? key

/-- Tables that agree on all keys under a stem have the same rows there. -/
theorem Table.AgreeOn.rowsUnder {keys : Bytes → Prop} {a b : Table} {stem : Bytes}
    (h : a.AgreeOn keys b) (hstem : ∀ key, stem <+: key → keys key) :
    a.rowsUnder stem = b.rowsUnder stem :=
  rowsUnder_congr fun key hkey => h key (hstem key hkey)

/-- A change outside some keys is none to keys apart from them. -/
theorem Table.AgreeOff.agreeOn {keys others : Bytes → Prop} {a b : Table}
    (h : a.AgreeOff others b) (hdisjoint : ∀ key, keys key → ¬ others key) :
    a.AgreeOn keys b :=
  fun key hkey => (h key (hdisjoint key hkey)).symm

namespace Engine

variable {α β : Type} {keys : Bytes → Prop}

/-- Whether a computation writes nothing and has one outcome on all tables that
hold the same at the given keys. -/
def Local (keys : Bytes → Prop) (action : StoreM α) : Prop :=
  ∀ a b : Table, a.AgreeOn keys b →
    ∃ outcome, action.run (ofTable a) = (outcome, ofTable a) ∧
      action.run (ofTable b) = (outcome, ofTable b)

namespace Local

/-! ## Rules -/

/-- An answer depends on no row. -/
protected theorem pure (a : α) : Local keys (pure a : StoreM α) :=
  fun _ _ _ => ⟨.ok a, rfl, rfl⟩

/-- A failure depends on no row. -/
protected theorem throw (e : StoreError) : Local keys (throw e : StoreM α) :=
  fun _ _ _ => ⟨.error e, rfl, rfl⟩

/-- A step behind another one depends on what both look at. -/
protected theorem bind {first : StoreM α} {next : α → StoreM β} (hfirst : Local keys first)
    (hnext : ∀ a, Local keys (next a)) : Local keys (first >>= next) := by
  intro a b hagree
  obtain ⟨outcome, ha, hb⟩ := hfirst a b hagree
  cases outcome with
  | error e => exact ⟨.error e, run_bind_error ha, run_bind_error hb⟩
  | ok found =>
      obtain ⟨outcome, hna, hnb⟩ := hnext found a b hagree
      exact ⟨outcome, (run_bind_ok ha).trans hna, (run_bind_ok hb).trans hnb⟩

/-- A changed answer depends on what the answer does. -/
protected theorem map {action : StoreM α} (f : α → β) (h : Local keys action) :
    Local keys (f <$> action) := by
  intro a b hagree
  obtain ⟨outcome, ha, hb⟩ := h a b hagree
  exact ⟨outcome.map f, by rw [run_map, ha], by rw [run_map, hb]⟩

/-- A choice that is made without the store depends on what both sides look at. -/
protected theorem ite {c : Prop} [Decidable c] {yes no : StoreM α} (hyes : Local keys yes)
    (hno : Local keys no) : Local keys (if c then yes else no) := by
  split
  · exact hyes
  · exact hno

/-! ## Calls -/

/-- A read looks at its row. -/
protected theorem get {key : Bytes} (h : keys key) : Local keys (get key) := by
  intro a b hagree
  exact ⟨.ok (a.get? key), run_get a key, by rw [run_get, hagree key h]⟩

/-- A scan looks at the rows under its stem. -/
protected theorem scan {stem : Bytes} (h : ∀ key, stem <+: key → keys key) :
    Local keys (scan stem) := by
  intro a b hagree
  exact ⟨.ok (a.rowsUnder stem), run_scan a stem, by rw [run_scan, hagree.rowsUnder h]⟩

/-- So does a visit of them. -/
protected theorem visitUnder {σ : Type} {stem : Bytes} (h : ∀ key, stem <+: key → keys key)
    (visit : σ → Row → σ × Table.Visit) (start : σ) :
    Local keys (visitUnder stem visit start) := by
  intro a b hagree
  exact ⟨_, run_visitUnder a stem visit start, by rw [run_visitUnder, hagree.rowsUnder h]⟩

/-! ## Changes elsewhere -/

/-- A local computation answers the same after a change of other keys. -/
theorem of_agreeOff {others : Bytes → Prop} {action : StoreM α} (h : Local keys action)
    {before after : Table} (hagree : before.AgreeOff others after)
    (hdisjoint : ∀ key, keys key → ¬ others key) :
    ∃ outcome, action.run (ofTable before) = (outcome, ofTable before) ∧
      action.run (ofTable after) = (outcome, ofTable after) :=
  h before after (hagree.agreeOn hdisjoint)

end Local

/-! ## Computations that write alike -/

/-- Whether a computation has one outcome on all tables that hold the same at the
given keys, and leaves the same at these keys. -/
def Mirrors (keys : Bytes → Prop) (action : StoreM α) : Prop :=
  ∀ a b : Table, a.AgreeOn keys b →
    ∃ outcome a' b', action.run (ofTable a) = (outcome, ofTable a') ∧
      action.run (ofTable b) = (outcome, ofTable b') ∧ a'.AgreeOn keys b'

namespace Mirrors

/-- What depends on some rows does the same to them in all tables that agree there. -/
theorem of_local {action : StoreM α} (h : Local keys action) : Mirrors keys action := by
  intro a b hagree
  obtain ⟨outcome, ha, hb⟩ := h a b hagree
  exact ⟨outcome, a, b, ha, hb, hagree⟩

/-- An answer does the same everywhere. -/
protected theorem pure (a : α) : Mirrors keys (pure a : StoreM α) :=
  of_local (.pure a)

/-- A step behind another one. -/
protected theorem bind {first : StoreM α} {next : α → StoreM β} (hfirst : Mirrors keys first)
    (hnext : ∀ a, Mirrors keys (next a)) : Mirrors keys (first >>= next) := by
  intro a b hagree
  obtain ⟨outcome, a', b', ha, hb, hbetween⟩ := hfirst a b hagree
  cases outcome with
  | error e => exact ⟨.error e, a', b', run_bind_error ha, run_bind_error hb, hbetween⟩
  | ok found =>
      obtain ⟨outcome, a'', b'', hna, hnb, hafter⟩ := hnext found a' b' hbetween
      exact ⟨outcome, a'', b'', (run_bind_ok ha).trans hna, (run_bind_ok hb).trans hnb, hafter⟩

/-- A first step that writes nothing. -/
theorem bind_local {first : StoreM α} {next : α → StoreM β} (hfirst : Local keys first)
    (hnext : ∀ a, Mirrors keys (next a)) : Mirrors keys (first >>= next) :=
  .bind (of_local hfirst) hnext

/-- A choice that is made without the store. -/
protected theorem ite {c : Prop} [Decidable c] {yes no : StoreM α} (hyes : Mirrors keys yes)
    (hno : Mirrors keys no) : Mirrors keys (if c then yes else no) := by
  split
  · exact hyes
  · exact hno

/-- A row is written into both tables alike. -/
protected theorem set (key contents : Bytes) : Mirrors keys (set key contents) := by
  intro a b hagree
  refine ⟨.ok (), _, _, run_set a key contents, run_set b key contents, fun other hother => ?_⟩
  by_cases hsame : key = other
  · subst hsame
    rw [Table.get?_insert_self, Table.get?_insert_self]
  · rw [Table.get?_insert_of_ne _ _ hsame, Table.get?_insert_of_ne _ _ hsame, hagree other hother]

end Mirrors
end Engine
end StructuredStore
