import StructuredStore.Proofs.Store.Isolation
import StructuredStore.Proofs.Store.Remains
import StructuredStore.Proofs.Store.Unreserved

/-!
# Where the operations on one key put its items

However many operations there are on an unreserved key, the items of its list
lie within the span of the metadata and those of its series at points, as long
as no push breaks off behind its item.  Without failures none does.  The
operations on a reserved key make no structure there: they refuse to, and what a
bucket lists that they enlist the key in are names.

Main definitions:

- `Arranged`: items lie where the kind of their structure puts them.
- `Unstructured`: no structure lies at the key.

Main results:

- `Edit.arranged`, `Edit.unstructured`: what edits keep.
- `Session.pushesWhole`: without failures no push breaks off.
- `Session.run_arranged`, `Session.run_unstructured`: what holds after any run on one
  key.
-/

namespace StructuredStore

open Engine Store

/-! ## Pushes without failures -/

/-- A push that leaves the metadata as it was leaves everything as it was. -/
theorem Deque.ends_push_whole (table : Table) (key : String) (value : Value) (side : Deque.End) :
    Ends table (Deque.push key value side) fun _ after =>
      after.get? (Key.ofText key) = table.get? (Key.ofText key) → after = table := by
  refine .bind (ends_readHandle table key) (fun _ _ h _ => h.1) ?_
  rintro ⟨handle, expireAt⟩ table ⟨rfl, hfound⟩
  have hframe : table.HasFrame (Key.ofText key) ⟨.list handle, expireAt⟩ := hfound _ rfl
  by_cases hfull : Full handle side
  · exact .bind_error (run_grow_full hfull _) fun _ => rfl
  refine .bind_run (run_grow hfull _) ?_
  refine .bind (ends_write _ (Key.listItem key (newIndex handle side)) value none)
    (fun _ _ hsame _ => hsame) ?_
  rintro _ _ ⟨item, _, rfl⟩
  obtain ⟨contents, hencode⟩ :=
    @Frame.exists_encode (.list (grown handle side)) expireAt _ rfl hframe.asStored_expireAt
  refine .bind_run (run_write hencode) (.pure fun hsame => ?_)
  -- The metadata was written, and it counts one item more.
  obtain ⟨old, hold, hdecode⟩ := hframe
  rw [Table.get?_insert_self, hold] at hsame
  cases hsame
  have hlonger := length_grown hfull
  rw [← Frame.handle_eq_of_decode hencode hdecode] at hlonger
  exact absurd hlonger (by omega)

namespace Store

variable {permit : Permit} {key : String} {table after : Table} {physical : Bytes}

/-! ## Points of series -/

/-- Whether every item under the stem of a series is a point. -/
def OnlyPoints (key : String) (table : Table) : Prop :=
  ∀ physical, Key.itemStem key .series <+: physical → table.get? physical ≠ none →
    Series.IsPoint key physical

namespace OnlyPoints

/-- Erasing a row leaves only points under the series' stem. -/
theorem erase (h : OnlyPoints key table) (physical : Bytes) :
    OnlyPoints key (table.erase physical) := by
  intro other hstem hget
  apply h other hstem
  intro hnone
  rw [Table.get?_erase, hnone, ite_self] at hget
  exact hget rfl

/-- A new row under the series' stem has to be a point. -/
theorem insert (h : OnlyPoints key table) {contents : Bytes}
    (hpoint : Key.itemStem key .series <+: physical → Series.IsPoint key physical) :
    OnlyPoints key (table.insert physical contents) := by
  intro other hstem hget
  rw [Table.get?_insert] at hget
  split at hget
  · rename_i heq
    exact heq ▸ hpoint (heq ▸ hstem)
  · exact h other hstem hget

/-- The metadata row lies under no stem of its own key. -/
theorem insert_ofText (h : OnlyPoints key table) (contents : Bytes) :
    OnlyPoints key (table.insert (Key.ofText key) contents) :=
  h.insert fun hstem => absurd hstem (Key.not_itemStem_prefix_ofText key .series)

/-- A list's items lie under another stem than a series' points. -/
theorem insert_listItem (h : OnlyPoints key table) (index : Int64) (item : Bytes) :
    OnlyPoints key (table.insert (Key.listItem key index) item) :=
  h.insert fun hstem =>
    nomatch Key.marker_eq_of_stems (Key.itemStem_prefix_listItem key index) hstem

end OnlyPoints

/-- One edit keeps to points. -/
theorem Edit.onlyPoints (hedit : Edit permit key table after) (h : OnlyPoints key table) :
    OnlyPoints key after := by
  cases hedit with
  | dropItem _ => exact h.erase _
  | dropValue _ _ => exact h.erase _
  | putValue _ _ _ => exact h.insert_ofText _
  | restamp _ _ => exact h.insert_ofText _
  | recount _ _ _ _ _ => exact h.insert_ofText _
  | putItem _ _ _ hstem hpoint =>
      exact h.insert fun hunder => hpoint (Key.marker_eq_of_stems hstem hunder)
  | setItem _ _ _ _ => exact h.insert_listItem _ _
  | copyItem _ _ _ _ _ => exact h.insert_listItem _ _
  | rehandle _ _ _ _ => exact h.insert_ofText _
  | push _ _ _ _ _ => exact (h.insert_listItem _ _).insert_ofText _

/-! ## Items at their places -/

/-- Whether metadata that can be read as that of a list counts items, the metadata
at the key promises every item, and those of a series are points. -/
structure Arranged (key : String) (table : Table) : Prop where
  regular : Deque.Regular table key
  accounted : Accounted (fun _ => True) key table
  onlyPoints : OnlyPoints key table

/-- One edit keeps a key's rows arranged. -/
theorem Edit.arranged (hedit : Edit permit key table after) (h : Arranged key table) :
    Arranged key after :=
  ⟨hedit.regular h.regular, hedit.accounted h.accounted, hedit.onlyPoints h.onlyPoints⟩

namespace Arranged

/-- Nothing is stored under a key of the empty store. -/
theorem empty (key : String) : Arranged key .empty :=
  ⟨fun _ _ hframe => absurd rfl hframe.get?_ne_none, accounted_empty _ key,
    fun _ _ hget => absurd rfl hget⟩

/-- A sequence of edits keeps a key's rows arranged. -/
theorem edits (h : Arranged key table) (hedits : Edits permit key table after) :
    Arranged key after := by
  induction hedits with
  | refl => exact h
  | tail _ hedit ih => exact hedit.arranged ih

/-- Only what belongs to the key matters. -/
theorem congr (h : Arranged key table)
    (hsame : ∀ physical, Key.Owns key physical → after.get? physical = table.get? physical) :
    Arranged key after := by
  refine ⟨h.regular.congr (hsame _ (.self key)), fun marker physical htracked hstem hget => ?_,
    fun physical hstem hget => ?_⟩
  · rw [hsame _ (.under hstem)] at hget
    rw [hsame _ (.self key)]
    exact h.accounted marker physical htracked hstem hget
  · rw [hsame _ (.under hstem)] at hget
    exact h.onlyPoints physical hstem hget

/-- An operation that sets no expiry, unless it is a push that breaks off behind
its item. -/
theorem endures_own (h : Arranged key table) (env : Environment) {op : Operation}
    (hkey : op.key? = some key) (hschedules : op.schedules = false) :
    Endures table (op.perform env) fun _ after =>
      ((∃ side value, op = .listPush key side value) →
        after.get? (Key.ofText key) = table.get? (Key.ofText key) → after = table) →
      Arranged key after := by
  have hallowed : op.Allowed .all key table :=
    ⟨fun _ => trivial, fun _ _ _ _ => trivial, fun _ hreadable => hreadable.elim⟩
  apply (op.endures_edits env hkey hschedules h.regular hallowed).conseq
  rintro _ after (hedits | ⟨hpush, _, htorn⟩) hwhole
  · exact h.edits hedits
  · obtain ⟨_, _, index, item, _, _, rfl⟩ := htorn
    rwa [hwhole hpush (Table.get?_insert_of_ne table item (Deque.listItem_ne_ofText key index))]

/-- An operation that sets an expiry also writes into a bucket, which owns nothing
of an unreserved key. -/
theorem endures_scheduling (h : Arranged key table) (hreserved : Key.isReserved key = false)
    (env : Environment) {op : Operation} (hkey : op.key? = some key)
    (hschedules : op.schedules = true) :
    Endures table (op.perform env) fun _ after => Arranged key after := by
  have hstamp : ∀ instant, Maintains (Arranged key) (Expiry.stamp key instant) :=
    fun instant table h => (@Expiry.revises_stamp .all key table instant).edits.conseq
      fun _ _ hedits => h.edits hedits
  have henlist : ∀ instant, Maintains (Arranged key)
      (Expiry.enlist (env.width.bucket instant) key) :=
    fun instant table h => (Endures.of_confined (Expiry.confined_enlist _ key) table).conseq
      fun _ _ hagree => h.congr fun physical howns =>
        hagree physical (Key.not_owns_bucket hreserved howns)
  exact op.maintains_scheduling_of env hkey hschedules
    (fun instant => Expiry.maintains_setAt_of (hstamp instant) (henlist instant) env.now) table h

end Arranged

/-! ## Keys without a structure -/

/-- Whether nothing lies at the key or what is no structure. -/
def Unstructured (key : String) (table : Table) : Prop :=
  ∀ contents, table.get? (Key.ofText key) = some contents →
    ∃ kind, Frame.peekKind contents = .ok kind ∧ kind.isStructure = false

namespace Unstructured

variable {value : Value} {expireAt : Option Instant} {contents : Bytes}

theorem empty (key : String) : Unstructured key .empty :=
  fun _ hget => by cases hget

/-- Being unstructured is read off the metadata row alone. -/
theorem congr (h : Unstructured key table)
    (hself : after.get? (Key.ofText key) = table.get? (Key.ofText key)) : Unstructured key after :=
  fun contents hget => h contents (hself ▸ hget)

/-- A frame of another kind may come anywhere. -/
theorem insert (h : Unstructured key table) (hscalar : value.kind.isStructure = false)
    (hencode : Frame.encode ⟨value, expireAt⟩ = .ok contents) (physical : Bytes) :
    Unstructured key (table.insert physical contents) := by
  intro found hget
  rw [Table.get?_insert] at hget
  split at hget
  · cases hget
    exact ⟨_, Frame.peekKind_encode hencode, hscalar⟩
  · exact h found hget

/-- The kind an unstructured key shows is that of a scalar. -/
theorem kind_of_frame (h : Unstructured key table)
    (hframe : table.HasFrame (Key.ofText key) ⟨value, expireAt⟩) :
    value.kind.isStructure = false := by
  obtain ⟨contents, hget, hdecode⟩ := hframe
  obtain ⟨kind, hkind, hscalar⟩ := h contents hget
  rw [Frame.peekKind_of_decode hdecode] at hkind
  cases hkind
  exact hscalar

/-- An unstructured key shows no marker, so it has no items of its own. -/
theorem marker?_ne_some (h : Unstructured key table)
    (hframe : table.HasFrame (Key.ofText key) ⟨value, expireAt⟩) (marker : Key.Marker) :
    value.marker? ≠ some marker := by
  intro hmarker
  have hscalar := h.kind_of_frame hframe
  rw [Value.marker?_eq_some_iff.mp hmarker, marker.isStructure_kind] at hscalar
  cases hscalar

/-- An unstructured key shows no list handle. -/
theorem not_list (h : Unstructured key table) (handle : ListHandle) :
    ¬ table.HasFrame (Key.ofText key) ⟨.list handle, expireAt⟩ :=
  fun hframe => h.marker?_ne_some hframe .list rfl

end Unstructured

/-- Where values are not replaced an edit makes no structure. -/
theorem Edit.unstructured (hedit : Edit permit key table after) (hpermit : ¬ permit.replaces)
    (h : Unstructured key table) : Unstructured key after := by
  cases hedit with
  | dropItem hstem => exact h.congr (Table.get?_erase_of_ne table (Tallied.ne_ofText hstem))
  | dropValue _ _ =>
      intro contents hget
      rw [Table.get?_erase_self] at hget
      cases hget
  | putValue hreplaces _ _ => exact absurd hreplaces hpermit
  | restamp hframe hencode => exact h.insert (h.kind_of_frame hframe) hencode _
  | recount hframe hvalue _ _ _ => exact absurd hvalue (h.marker?_ne_some hframe _)
  | putItem hframe hvalue _ _ _ => exact absurd hvalue (h.marker?_ne_some hframe _)
  | setItem hframe _ _ _ => exact absurd hframe (h.not_list _)
  | copyItem hframe _ _ _ _ => exact absurd hframe (h.not_list _)
  | rehandle hframe _ _ _ => exact absurd hframe (h.not_list _)
  | push hframe _ _ _ _ => exact absurd hframe (h.not_list _)

namespace Unstructured

variable {bucket : String}

/-- Edits that may not replace the metadata leave an unstructured key unstructured. -/
theorem edits (h : Unstructured key table) (hpermit : ¬ permit.replaces)
    (hedits : Edits permit key table after) : Unstructured key after := by
  induction hedits with
  | refl => exact h
  | tail _ hedit ih => exact hedit.unstructured hpermit ih

/-- A scalar is made of a scalar. -/
theorem maintains_update {α : Type} {next : Option Value → Except StoreError (Value × α)}
    (hnext : Operation.MakesScalars next) : Maintains (Unstructured key) (update key next) := by
  refine .bind (.of_readOnly (confined_read _)) fun found => ?_
  split
  · exact .of_readOnly (.throw _)
  · rename_i value answer heq
    obtain ⟨hscalar, _⟩ := hnext _ _ _ heq
    refine .bind (fun table h => ?_) fun _ => .pure _
    exact endures_write (fun _ => h) fun _ hencode _ => h.insert hscalar hencode _

/-- An operation on a reserved key that sets no expiry. -/
theorem endures_own (h : Unstructured key table) (hreserved : Key.isReserved key = true)
    (env : Environment) {op : Operation} (hkey : op.key? = some key)
    (hschedules : op.schedules = false) :
    Endures table (op.perform env) fun _ after => Unstructured key after := by
  by_cases hupdates : op.updates = true
  · rcases op.perform_of_updates env hkey hupdates with ⟨e, heq⟩ | ⟨α, next, answer, hnext, heq⟩
    · rw [heq]
      exact .throw h
    · rw [heq]
      exact .map _ (maintains_update hnext table h)
  · have hallowed : op.Allowed ⟨False, fun _ => True, False⟩ key table := by
      refine ⟨?_, fun _ _ _ _ => trivial, fun _ hreadable => hreadable.elim⟩
      rintro (hunreserved | hop)
      · cases hreserved.symm.trans hunreserved
      · exact hupdates hop
    apply (op.endures_edits env hkey hschedules (fun handle _ hframe =>
      absurd hframe (h.not_list handle)) hallowed).conseq
    rintro _ after (hedits | ⟨_, _, htorn⟩)
    · exact h.edits id hedits
    · obtain ⟨handle, _, _, _, hframe, _⟩ := htorn
      exact absurd hframe (h.not_list handle)

/-! ### Setting an expiry -/

/-- A stamped key holds a value. -/
theorem endures_stamp (h : Unstructured key table) (instant : Instant) :
    Endures table (Expiry.stamp key instant) fun outcome after =>
      Unstructured key after ∧ ∀ a, outcome = .ok a → after.get? (Key.ofText key) ≠ none := by
  refine (finds_readExisting table _).before (fun _ => ⟨h, fun _ heq => by cases heq⟩)
    fun frame hframe => ?_
  refine endures_write (fun _ => ⟨h, fun _ heq => by cases heq⟩)
    fun contents hencode _ => ⟨?_, fun _ _ => by simp⟩
  exact h.insert (h.kind_of_frame hframe) hencode _

/-- A name is put into the list of another key, or into none: the key's own value
is no list. -/
theorem maintains_push (bucket name : String) :
    Maintains (Unstructured key) (Deque.push bucket (.text name) .right) := by
  intro table h
  refine (Deque.finds_readHandle table bucket).before (fun _ => h) ?_
  rintro ⟨handle, expireAt⟩ hframe
  refine (Deque.finds_grow table handle .right).before (fun _ => h) fun _ _ => ?_
  have hother : Key.ofText bucket ≠ Key.ofText key := by
    intro heq
    rw [Utf8.encode_injective heq] at hframe
    exact h.not_list handle hframe
  have hitem : ∀ item, Frame.encode ⟨.text name, none⟩ = .ok item → ∀ physical,
      Unstructured key (table.insert physical item) := fun _ hencode => h.insert rfl hencode
  refine endures_write_bind (fun _ => h) (fun item hencode _ => hitem item hencode _)
    fun item hencode => ?_
  exact Maintains.bind (fun between hbetween => endures_write (fun _ => hbetween) fun _ _ _ =>
    hbetween.congr (Table.get?_insert_of_ne between _ hother)) (fun _ => .pure _) _
    (hitem item hencode _)

/-- The key is enlisted in a bucket.  It is no bucket that is created, because it
is there. -/
theorem endures_enlist (h : Unstructured key table) (hthere : table.get? (Key.ofText key) ≠ none)
    (bucket : String) :
    Endures table (Expiry.enlist bucket key) fun _ after => Unstructured key after := by
  have hcreating : Endures table (Deque.pushRightCreating bucket (.text key)) fun _ after =>
      Unstructured key after := by
    refine (finds_read table _).before (fun _ => h) fun found hfound => ?_
    refine .ite (fun hnone => ?_) fun _ => maintains_push bucket key table h
    rw [Option.isNone_iff_eq_none.mp hnone] at hfound
    have hother : Key.ofText bucket ≠ Key.ofText key := by
      intro heq
      rw [heq] at hfound
      exact hthere hfound
    have hcreated : ∀ contents, Unstructured key (table.insert (Key.ofText bucket) contents) :=
      fun contents => h.congr (Table.get?_insert_of_ne table contents hother)
    exact endures_write_bind (fun _ => h) (fun contents _ _ => hcreated contents)
      fun contents _ => maintains_push bucket key _ (hcreated contents)
  exact .bind hcreating (fun _ _ hafter => hafter) fun _ _ hafter => .pure hafter

/-- Setting an expiry anywhere leaves an unstructured key unstructured. -/
theorem maintains_setAt (width : BucketWidth) (now instant : Instant) :
    Maintains (Unstructured key) (Expiry.setAt width now key instant) := by
  intro table h
  refine .ite (fun _ => .pure h) fun _ => ?_
  refine .bind (h.endures_stamp instant) (fun _ _ hstamped => hstamped.1) ?_
  rintro _ stamped ⟨hstamped, hthere⟩
  exact .bind (hstamped.endures_enlist (hthere _ rfl) _) (fun _ _ hafter => hafter)
    fun _ _ hafter => .pure hafter

end Unstructured
end Store

/-! ## Runs on one key -/

namespace Session

variable {key : String} {steps : List Step}

/-- A run on one key without failures makes none. -/
theorem run_ofTable (session : Session) {table : Table} (hstart : session.engine = .ofTable table)
    (hops : ∀ op ∈ operations steps, op.key? = some key) :
    ∃ after, (session.run steps).2.engine = .ofTable after := by
  have hperform : ∀ {op : Operation} {count : Nat} {table : Table} (clock : Clock),
      op.key? = some key → True → count + 1 < (operations steps).length + 1 →
      Ends table (op.perform ⟨clock.now, session.width, session.providers⟩) fun _ _ => True := by
    intro op _ table clock hkey _ _
    obtain ⟨outcome, after, hrun, _⟩ :=
      (op.confined_perform_buckets ⟨clock.now, session.width, session.providers⟩ hkey).run_ofTable
        table
    exact ⟨outcome, after, hrun, trivial⟩
  obtain ⟨after, hengine, -⟩ := @run_invariant (fun _ _ => True) (fun op => op.key? = some key)
    ((operations steps).length + 1) 0 session table hperform steps hstart trivial hops (by omega)
  exact ⟨after, hengine⟩

/-- Without failures no push of a run breaks off behind its item. -/
theorem pushesWhole (session : Session) {table : Table} (hstart : session.engine = .ofTable table)
    (hops : ∀ op ∈ operations steps, op.key? = some key) : session.PushesWhole key steps := by
  rintro front side value back rfl
  have hfront : ∀ op ∈ operations front, op.key? = some key := by
    intro op hop
    apply hops op
    rw [operations, List.filterMap_append]
    exact List.mem_append_left _ hop
  obtain ⟨before, hbefore⟩ := run_ofTable session hstart hfront
  have hpush : Ends before
      ((Operation.listPush key side value).perform (session.run front).2.environment) fun _ after =>
        after.get? (Key.ofText key) = before.get? (Key.ofText key) → after = before :=
    .map _ (Deque.ends_push_whole before key value side)
  obtain ⟨outcome, after, hrun, hwhole⟩ := hpush
  have hafter :
      ((session.run front).2.perform (.listPush key side value)).2.engine.table = after := by
    rw [Session.perform, hbefore]
    exact congrArg (fun result => result.2.table) hrun
  dsimp only
  rw [hafter, hbefore]
  exact hwhole

/-- Items lie at their places after every run on one unreserved key in which no
push breaks off behind its item. -/
theorem run_arranged (session : Session) (hstart : session.engine.table = .empty)
    (hreserved : Key.isReserved key = false)
    (hops : ∀ op ∈ operations steps, op.key? = some key)
    (hwhole : session.PushesWhole key steps) :
    Arranged key (session.run steps).2.engine.table := by
  refine run_keeps steps session (hstart ▸ .empty key) fun front op back hsplit h => ?_
  have hkey : op.key? = some key := hops op (hsplit ▸ mem_operations front op back)
  cases hschedules : op.schedules with
  | true => exact of_endures (h.endures_scheduling hreserved _ hkey hschedules)
  | false =>
      apply of_endures (h.endures_own _ hkey hschedules)
      rintro ⟨side, value, rfl⟩ hsame
      exact hwhole front side value back hsplit hsame

/-- No structure lies at a reserved key after any run on it, whichever calls
fail. -/
theorem run_unstructured (session : Session) (hstart : session.engine.table = .empty)
    (hreserved : Key.isReserved key = true)
    (hops : ∀ op ∈ operations steps, op.key? = some key) :
    Unstructured key (session.run steps).2.engine.table := by
  refine run_keeps steps session (hstart ▸ .empty key) fun front op back hsplit h => ?_
  have hkey : op.key? = some key := hops op (hsplit ▸ mem_operations front op back)
  cases hschedules : op.schedules with
  | true =>
      exact of_endures (op.maintains_scheduling_of _ hkey hschedules
        (fun instant => Unstructured.maintains_setAt _ _ instant) _ h)
  | false => exact of_endures (h.endures_own hreserved _ hkey hschedules)

end Session
end StructuredStore
