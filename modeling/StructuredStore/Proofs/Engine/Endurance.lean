import StructuredStore.Proofs.Engine.Execution

/-!
# What holds whichever calls fail

A computation under an unknown plan of failures may end anywhere on its way.
What is known of its outcome and of the table it leaves, whatever the plan, is
put together step by step like what is known of a run without failures: a call
that fails leaves the table as it was, or with the call's effect.

Main results:

- `Endures.bind`: a sequence ends as its second step does, or with the failure
  of its first one.
- `Finds.bind`, `Finds.before`: reads in a row, and a read before another step.
- `Thinning.bind`: what only takes rows away, step by step.
- `Maintains.bind`: what keeps an invariant, step by step.
-/

namespace StructuredStore

/-- Whether each row of the first table is in the second one or gone there, and
there are no other rows. -/
def Table.Thins (table after : Table) : Prop :=
  ∀ key, after.get? key = table.get? key ∨ after.get? key = none

namespace Table.Thins

variable {table between after : Table}

theorem refl (table : Table) : table.Thins table :=
  fun _ => Or.inl rfl

/-- Rows that are removed in two steps are removed. -/
theorem trans (hfirst : table.Thins between) (hsecond : between.Thins after) :
    table.Thins after := by
  intro key
  rcases hsecond key with hsame | hgone
  · rw [hsame]
    exact hfirst key
  · exact Or.inr hgone

/-- Erasing a key removes its row. -/
theorem erase (table : Table) (key : Bytes) : table.Thins (table.erase key) := by
  intro other
  rw [get?_erase]
  split
  · exact Or.inr rfl
  · exact Or.inl rfl

end Table.Thins

namespace Engine

variable {α β : Type}

/-- Whether a computation that starts on the table ends with an outcome and a
table as described, whichever calls fail. -/
structure Endures (table : Table) (action : StoreM α) (post : Except StoreError α → Table → Prop) :
    Prop where
  ends : ∀ faults, post (action.run ⟨table, faults⟩).1 (action.run ⟨table, faults⟩).2.table

namespace Endures

variable {table : Table} {post : Except StoreError α → Table → Prop}

/-! ## Rules -/

/-- What holds whichever calls fail holds of a run on an engine. -/
theorem of_run {engine left : Engine} {action : StoreM α} {outcome : Except StoreError α}
    (h : Endures engine.table action post) (hrun : action.run engine = (outcome, left)) :
    post outcome left.table := by
  have hpost := h.ends engine.faults
  rwa [hrun] at hpost

/-- A weaker condition holds as well. -/
theorem conseq {action : StoreM α} {pre : Except StoreError α → Table → Prop}
    (h : Endures table action pre)
    (hpost : ∀ outcome after, pre outcome after → post outcome after) :
    Endures table action post :=
  ⟨fun faults => hpost _ _ (h.ends faults)⟩

/-- Two conditions hold together. -/
protected theorem and {action : StoreM α} {also : Except StoreError α → Table → Prop}
    (h : Endures table action post) (halso : Endures table action also) :
    Endures table action fun outcome after => post outcome after ∧ also outcome after :=
  ⟨fun faults => ⟨h.ends faults, halso.ends faults⟩⟩

protected theorem pure {a : α} (h : post (.ok a) table) : Endures table (pure a) post :=
  ⟨fun _ => h⟩

protected theorem throw {e : StoreError} (h : post (.error e) table) :
    Endures table (throw e) post :=
  ⟨fun _ => h⟩

/-- A sequence ends as its second step does on what the first one leaves, or
with the first one's failure. -/
protected theorem bind {first : StoreM α} {next : α → StoreM β}
    {mid : Except StoreError α → Table → Prop} {post : Except StoreError β → Table → Prop}
    (hfirst : Endures table first mid)
    (herror : ∀ e between, mid (.error e) between → post (.error e) between)
    (hok : ∀ a between, mid (.ok a) between → Endures between (next a) post) :
    Endures table (first >>= next) post := by
  constructor
  intro faults
  have hmid := hfirst.ends faults
  rcases hrun : first.run ⟨table, faults⟩ with ⟨e | a, left⟩
  · rw [hrun] at hmid
    rw [run_bind_error hrun]
    exact herror e left.table hmid
  · rw [hrun] at hmid
    rw [run_bind_ok hrun]
    exact (hok a left.table hmid).ends left.faults

/-- A first step that succeeds. -/
theorem bind_ok {first : StoreM α} {next : α → StoreM β} {mid : Table → Prop}
    {post : Except StoreError β → Table → Prop}
    (hfirst : Endures table first fun outcome between => (∃ a, outcome = .ok a) ∧ mid between)
    (hok : ∀ a between, mid between → Endures between (next a) post) :
    Endures table (first >>= next) post := by
  apply Endures.bind hfirst
  · intro e between hfails
    obtain ⟨_, heq⟩ := hfails.1
    cases heq
  · exact fun a between hbetween => hok a between hbetween.2

/-- A sequence that succeeds leaves what its second step does. -/
theorem bind_last {first : StoreM α} {next : α → StoreM β} {done : Table → Prop}
    (hnext : ∀ a between, Endures between (next a) fun outcome after =>
      ∀ b, outcome = .ok b → done after) :
    Endures table (first >>= next) fun outcome after => ∀ b, outcome = .ok b → done after := by
  have hfirst : Endures table first fun _ _ => True := ⟨fun _ => trivial⟩
  exact .bind hfirst (fun _ _ _ _ heq => by cases heq) fun a between _ => hnext a between

/-- An answer that is changed afterwards. -/
protected theorem map {action : StoreM α} (f : α → β)
    {post : Except StoreError β → Table → Prop}
    (h : Endures table action fun outcome after => post (outcome.map f) after) :
    Endures table (f <$> action) post := by
  constructor
  intro faults
  rw [run_map]
  exact h.ends faults

/-- A choice between two computations. -/
protected theorem ite {c : Prop} [Decidable c] {yes no : StoreM α}
    (hyes : c → Endures table yes post) (hno : ¬ c → Endures table no post) :
    Endures table (if c then yes else no) post := by
  by_cases hc : c
  · rw [if_pos hc]
    exact hyes hc
  · rw [if_neg hc]
    exact hno hc

/-- A confined computation leaves all other keys alone. -/
theorem of_confined {keys : Bytes → Prop} {action : StoreM α} (h : Confined keys action)
    (table : Table) : Endures table action fun _ after => table.AgreeOff keys after :=
  ⟨fun faults => h.agree ⟨table, faults⟩⟩

/-- A call passes, or fails before or after it has taken effect. -/
theorem perform {call : Call} {effect : Table → α × Table}
    (hpass : post (.ok (effect table).1) (effect table).2)
    (hbefore : ∀ e, post (.error e) table) (hafter : ∀ e, post (.error e) (effect table).2) :
    Endures table (perform call effect) post := by
  constructor
  intro faults
  simp only [Engine.perform, ExceptT.run, ExceptT.mk]
  cases Engine.verdict ⟨table, faults⟩ call with
  | pass => exact hpass
  | failBefore => exact hbefore _
  | failAfter => exact hafter _

end Endures

/-- A call of the engine fails in one way only. -/
theorem eq_injected_of_run_perform {call : Call} {effect : Table → α × Table} {engine left : Engine}
    {e : StoreError} (h : (perform call effect).run engine = (.error e, left)) :
    e = .io .injected := by
  simp only [perform, ExceptT.run, ExceptT.mk] at h
  cases hverdict : engine.verdict call <;> rw [hverdict] at h <;> cases h <;> rfl

/-! ## Reads -/

/-- Whether a computation leaves the table as it is and answers as described, if
it answers at all. -/
def Finds (table : Table) (action : StoreM α) (found : α → Prop) : Prop :=
  Endures table action fun outcome after => after = table ∧ ∀ a, outcome = .ok a → found a

namespace Finds

variable {table : Table} {found : α → Prop}

/-- An answer finds what holds of it. -/
protected theorem pure {a : α} (h : found a) : Finds table (pure a) found :=
  Endures.pure ⟨rfl, fun _ heq => by cases heq; exact h⟩

/-- A failure finds nothing and changes nothing. -/
protected theorem throw (e : StoreError) : Finds table (throw e) found :=
  Endures.throw ⟨rfl, fun _ heq => by cases heq⟩

/-- A read finds what lies at its key. -/
protected theorem get (table : Table) (key : Bytes) :
    Finds table (get key) fun contents => contents = table.get? key :=
  Endures.perform ⟨rfl, fun _ heq => by cases heq; rfl⟩ (fun _ => ⟨rfl, fun _ heq => by cases heq⟩)
    fun _ => ⟨rfl, fun _ heq => by cases heq⟩

/-- A visit finds what it collects from the rows under its stem. -/
protected theorem visitUnder {σ : Type} (table : Table) (stem : Bytes)
    (visit : σ → Row → σ × Table.Visit) (start : σ) :
    Finds table (visitUnder stem visit start) fun state =>
      state = Table.visitRows visit start (table.rowsUnder stem) :=
  Endures.perform ⟨rfl, fun _ heq => by cases heq; rfl⟩ (fun _ => ⟨rfl, fun _ heq => by cases heq⟩)
    fun _ => ⟨rfl, fun _ heq => by cases heq⟩

/-- A scan finds the rows under its stem. -/
protected theorem scan (table : Table) (stem : Bytes) :
    Finds table (scan stem) fun rows => rows = table.rowsUnder stem :=
  Endures.perform ⟨rfl, fun _ heq => by cases heq; rfl⟩ (fun _ => ⟨rfl, fun _ heq => by cases heq⟩)
    fun _ => ⟨rfl, fun _ heq => by cases heq⟩

/-- What is found has the weaker property, too. -/
theorem mono {more : α → Prop} {action : StoreM α} (h : Finds table action found)
    (hmore : ∀ a, found a → more a) : Finds table action more :=
  h.conseq fun _ _ hafter => ⟨hafter.1, fun a heq => hmore a (hafter.2 a heq)⟩

/-- What writes nothing leaves the table as it is. -/
theorem of_readOnly {action : StoreM α} (h : ReadOnly action) :
    Finds table action fun _ => True :=
  (Endures.of_confined h table).conseq fun _ _ hagree => ⟨hagree.eq, fun _ _ => trivial⟩

/-- A step that looks at nothing. -/
theorem of_run_ok {action : StoreM α} {a : α}
    (hrun : ∀ engine : Engine, action.run engine = (.ok a, engine)) (h : found a) :
    Finds table action found := by
  constructor
  intro faults
  rw [hrun]
  exact ⟨rfl, fun _ heq => by cases heq; exact h⟩

/-- A computation that fails everywhere finds nothing. -/
theorem of_run_error {action : StoreM α} {e : StoreError}
    (hrun : ∀ engine : Engine, action.run engine = (.error e, engine)) :
    Finds table action found := by
  constructor
  intro faults
  rw [hrun]
  exact ⟨rfl, fun _ heq => by cases heq⟩

/-- A read in front of a step. -/
protected theorem before {first : StoreM α} {next : α → StoreM β}
    {post : Except StoreError β → Table → Prop} (hfirst : Finds table first found)
    (herror : ∀ e, post (.error e) table) (hok : ∀ a, found a → Endures table (next a) post) :
    Endures table (first >>= next) post := by
  apply Endures.bind hfirst
  · intro e between h
    rw [h.1]
    exact herror e
  · intro a between h
    rw [h.1]
    exact hok a (h.2 a rfl)

/-- One read after the other. -/
protected theorem bind {first : StoreM α} {next : α → StoreM β} {answer : β → Prop}
    (hfirst : Finds table first found) (hnext : ∀ a, found a → Finds table (next a) answer) :
    Finds table (first >>= next) answer :=
  hfirst.before (fun _ => ⟨rfl, fun _ heq => by cases heq⟩) hnext

end Finds

/-! ## Removals -/

/-- Whether a computation only takes rows away, whichever calls fail. -/
def Thinning (action : StoreM α) : Prop :=
  ∀ table, Endures table action fun _ after => table.Thins after

namespace Thinning

/-- What only looks removes nothing. -/
theorem of_readOnly {action : StoreM α} (h : ReadOnly action) : Thinning action := by
  intro table
  apply (Endures.of_confined h table).conseq
  intro _ after hagree key
  exact Or.inl (hagree key id)

/-- A step behind one that only removes rows. -/
protected theorem bind {first : StoreM α} {next : α → StoreM β} (hfirst : Thinning first)
    (hnext : ∀ a, Thinning (next a)) : Thinning (first >>= next) := by
  intro table
  apply Endures.bind (hfirst table) fun _ _ h => h
  intro a between hbetween
  exact (hnext a between).conseq fun _ _ hafter => hbetween.trans hafter

/-- A deletion removes a row or fails. -/
protected theorem delete (key : Bytes) : Thinning (delete key) :=
  fun table => .perform (.erase table key) (fun _ => .refl table) fun _ => .erase table key

/-- A computation whose last step is a removal takes the row away if it
succeeds. -/
theorem bind_delete {first : StoreM α} (hfirst : Thinning first) (key : Bytes) (table : Table) :
    Endures table (first >>= fun _ => delete key) fun outcome after =>
      table.Thins after ∧ ∀ a, outcome = .ok a → after.get? key = none := by
  apply Endures.bind (hfirst table)
  · exact fun e between hbetween => ⟨hbetween, fun _ heq => by cases heq⟩
  · intro _ between hbetween
    have herased := hbetween.trans (.erase between key)
    apply Endures.perform
    · exact ⟨herased, fun _ _ => Table.get?_erase_self between key⟩
    · exact fun e => ⟨hbetween, fun _ heq => by cases heq⟩
    · exact fun e => ⟨herased, fun _ heq => by cases heq⟩

end Thinning

/-! ## Invariants -/

/-- Whether a computation keeps what holds of the table, whichever calls fail. -/
def Maintains (inv : Table → Prop) (action : StoreM α) : Prop :=
  ∀ table, inv table → Endures table action fun _ after => inv after

namespace Maintains

variable {inv : Table → Prop}

/-- An answer maintains everything. -/
protected theorem pure (a : α) : Maintains inv (pure a) :=
  fun _ h => .pure h

/-- What only looks maintains everything. -/
theorem of_readOnly {action : StoreM α} (haction : ReadOnly action) : Maintains inv action :=
  fun table h => (Endures.of_confined haction table).conseq fun _ _ hagree => hagree.eq ▸ h

/-- What only removes rows maintains what does not depend on them. -/
theorem of_thinning {action : StoreM α} (haction : Thinning action)
    (hinv : ∀ table after, inv table → table.Thins after → inv after) : Maintains inv action :=
  fun table h => (haction table).conseq fun _ after hthins => hinv table after h hthins

/-- A step behind one that maintains an invariant. -/
protected theorem bind {first : StoreM α} {next : α → StoreM β} (hfirst : Maintains inv first)
    (hnext : ∀ a, Maintains inv (next a)) : Maintains inv (first >>= next) :=
  fun table h => .bind (hfirst table h) (fun _ _ hbetween => hbetween)
    fun a between hbetween => hnext a between hbetween

/-- A changed answer changes no rows. -/
protected theorem map (f : α → β) {action : StoreM α} (haction : Maintains inv action) :
    Maintains inv (f <$> action) :=
  fun table h => .map f (haction table h)

/-- A choice between computations that maintain an invariant. -/
protected theorem ite {c : Prop} [Decidable c] {yes no : StoreM α} (hyes : Maintains inv yes)
    (hno : Maintains inv no) : Maintains inv (if c then yes else no) :=
  fun table h => .ite (fun _ => hyes table h) fun _ => hno table h

/-- A check that may end the computation. -/
protected theorem guard {c : Prop} [Decidable c] {e : StoreError} {next : β → StoreM α}
    {go : StoreM α} (h : ¬ c → Maintains inv go) :
    Maintains inv (if c then throw e >>= next else go) :=
  fun table hinv => .ite (fun _ => .throw hinv) fun hc => h hc table hinv

end Maintains
end Engine
end StructuredStore
