import StructuredStore.Proofs.Store.Endurance
import StructuredStore.Proofs.Store.Footprint
import StructuredStore.Proofs.Store.Tally
import Mathlib.Logic.Relation

/-!
# What an operation may do to its key

Whatever calls fail, an operation on a key changes the rows of that key in a
few ways only: an item or the value goes, metadata is written anew, an item is
written where the metadata promises one.  What each of these edits keeps is
kept by every operation, however it ends, so that an invariant of all rows of a
key is proved edit by edit and not operation by operation.

Main definitions:

- `Edit`: one change of the rows of a key.
- `Revises`: computations that make no other changes.

Main results:

- `Revises.bind`, `Revises.write_bind`: the rules.
- `revises_purge`: a value goes with everything that it covers.
- `revises_create`, `revises_update`: the other shared steps.
- `revises_putItem`, `revises_takeItem`: structures that count their items.
-/

namespace StructuredStore

open Engine

/-! ## What metadata promises -/

/-- Whether a physical key is that of an item from the head to the tail. -/
def Deque.Spans (key : String) (handle : ListHandle) (physical : Bytes) : Prop :=
  ∃ index : Int64, physical = Key.listItem key index ∧
    handle.head.toInt ≤ index.toInt ∧ index.toInt ≤ handle.tail.toInt

/-- Whether a physical key is that of a point of a series. -/
def Series.IsPoint (key : String) (physical : Bytes) : Prop :=
  ∃ count : Int64, physical = Key.item key .series (Key.indexSelector count)

namespace Store

/-- Whether a value at a key has an item at the physical key, as far as the
value alone can tell. -/
def Covers (key : String) (value : Value) (physical : Bytes) : Prop :=
  (∃ marker, value.marker? = some marker ∧ Key.itemStem key marker <+: physical) ∧
    ∀ handle, value = .list handle → Deque.Spans key handle physical

/-- A list covers the items between its ends. -/
theorem covers_list {key : String} {handle : ListHandle} {physical : Bytes} :
    Covers key (.list handle) physical ↔ Deque.Spans key handle physical := by
  constructor
  · exact fun h => h.2 handle rfl
  · rintro ⟨index, rfl, hspan⟩
    refine ⟨⟨.list, rfl, Key.itemStem_prefix_listItem key index⟩, ?_⟩
    rintro _ ⟨⟩
    exact ⟨index, rfl, hspan⟩

/-! ## Edits -/

/-- What the operations of a run may write at a key. -/
structure Permit where
  /-- Whether values may be written over nothing or over what is no structure. -/
  replaces : Prop
  /-- The contents that items of lists may have. -/
  item : Bytes → Prop
  /-- Whether the metadata that a repair writes has to be readable. -/
  readable : Prop

/-- Whatever the operations write. -/
def Permit.all : Permit :=
  ⟨True, fun _ => True, False⟩

variable {permit : Permit} {key : String} {table between after : Table} {physical : Bytes}
  {expireAt : Option Instant} {value : Value}

/-- One change of the rows of a key. -/
inductive Edit (permit : Permit) (key : String) (table : Table) : Table → Prop where
  | dropItem {marker : Key.Marker} {physical : Bytes}
      (hstem : Key.itemStem key marker <+: physical) : Edit permit key table (table.erase physical)
  /-- A value goes after its items. -/
  | dropValue {value : Value} {expireAt : Option Instant}
      (hframe : table.HasFrame (Key.ofText key) ⟨value, expireAt⟩)
      (hbare : ∀ physical, Covers key value physical → table.get? physical = none) :
      Edit permit key table (table.erase (Key.ofText key))
  /-- A value is written where no structure is.  A new list is empty. -/
  | putValue {contents : Bytes} (hpermit : permit.replaces)
      (hold : ∀ old, table.get? (Key.ofText key) = some old →
        ∃ kind, Frame.peekKind old = .ok kind ∧ kind.isStructure = false)
      (hnew : ∀ handle expireAt, Frame.decode contents = .ok ⟨.list handle, expireAt⟩ →
        handle = .empty) :
      Edit permit key table (table.insert (Key.ofText key) contents)
  /-- A value gets another expiry. -/
  | restamp {value : Value} {expireAt next : Option Instant} {contents : Bytes}
      (hframe : table.HasFrame (Key.ofText key) ⟨value, expireAt⟩)
      (hencode : Frame.encode ⟨value, next⟩ = .ok contents) :
      Edit permit key table (table.insert (Key.ofText key) contents)
  /-- A structure that counts its items gets another count. -/
  | recount {value next : Value} {expireAt : Option Instant} {marker : Key.Marker}
      {contents : Bytes} (hframe : table.HasFrame (Key.ofText key) ⟨value, expireAt⟩)
      (hvalue : value.marker? = some marker) (hmarker : marker ≠ .list)
      (hnext : next.marker? = some marker)
      (hencode : Frame.encode ⟨next, expireAt⟩ = .ok contents) :
      Edit permit key table (table.insert (Key.ofText key) contents)
  /-- A structure that counts its items gets an item, a series one at a point. -/
  | putItem {value : Value} {expireAt : Option Instant} {marker : Key.Marker}
      {physical contents : Bytes} (hframe : table.HasFrame (Key.ofText key) ⟨value, expireAt⟩)
      (hvalue : value.marker? = some marker) (hmarker : marker ≠ .list)
      (hstem : Key.itemStem key marker <+: physical)
      (hpoint : marker = .series → Series.IsPoint key physical) :
      Edit permit key table (table.insert physical contents)
  /-- An item of a list is written within its span. -/
  | setItem {handle : ListHandle} {expireAt : Option Instant} {index : Int64} {contents : Bytes}
      (hframe : table.HasFrame (Key.ofText key) ⟨.list handle, expireAt⟩)
      (hlow : handle.head.toInt ≤ index.toInt) (hhigh : index.toInt ≤ handle.tail.toInt)
      (hitem : permit.item contents) :
      Edit permit key table (table.insert (Key.listItem key index) contents)
  /-- An item of a list is copied to an index between two items. -/
  | copyItem {handle : ListHandle} {expireAt : Option Instant} {low target source : Int64}
      {contents : Bytes} (hframe : table.HasFrame (Key.ofText key) ⟨.list handle, expireAt⟩)
      (hlow : table.get? (Key.listItem key low) ≠ none) (hle : low.toInt ≤ target.toInt)
      (hsource : table.get? (Key.listItem key source) = some contents)
      (hge : target.toInt ≤ source.toInt) :
      Edit permit key table (table.insert (Key.listItem key target) contents)
  /-- The metadata of a list is written anew, and loses none of the items. -/
  | rehandle {handle next : ListHandle} {expireAt : Option Instant} {contents : Bytes}
      (hframe : table.HasFrame (Key.ofText key) ⟨.list handle, expireAt⟩)
      (hencode : Frame.encode ⟨.list next, expireAt⟩ = .ok contents)
      (hreadable : permit.readable → (Value.list next).Storable)
      (hnext : (Value.list next).Storable → (∃ count, Deque.Describes next count) ∧
        ∀ physical, table.get? physical ≠ none → Deque.Spans key handle physical →
          Deque.Spans key next physical) :
      Edit permit key table (table.insert (Key.ofText key) contents)
  /-- A list gets an item at an end, and the metadata that counts it. -/
  | push {handle : ListHandle} {expireAt : Option Instant} {side : Deque.End} {count : Nat}
      {item contents : Bytes} (hframe : table.HasFrame (Key.ofText key) ⟨.list handle, expireAt⟩)
      (hdescribes : Deque.Describes handle count) (hroom : ¬ Deque.Full handle side)
      (hitem : permit.item item)
      (hencode : Frame.encode ⟨.list (Deque.grown handle side), expireAt⟩ = .ok contents) :
      Edit permit key table
        ((table.insert (Key.listItem key (Deque.newIndex handle side)) item).insert
          (Key.ofText key) contents)

/-- Any number of changes. -/
abbrev Edits (permit : Permit) (key : String) : Table → Table → Prop :=
  Relation.ReflTransGen (Edit permit key)

/-- Whether a push wrote its item, but not the metadata that counts it. -/
def Torn (permit : Permit) (key : String) (table after : Table) : Prop :=
  ∃ (handle : ListHandle) (expireAt : Option Instant) (index : Int64) (item : Bytes),
    table.HasFrame (Key.ofText key) ⟨.list handle, expireAt⟩ ∧ permit.item item ∧
      after = table.insert (Key.listItem key index) item

/-! ## Computations that make edits -/

/-- Whether a computation only makes edits, whichever calls fail, and leaves
what is described if it succeeds. -/
def Revises {α : Type} (permit : Permit) (key : String) (table : Table) (action : StoreM α)
    (done : α → Table → Prop) : Prop :=
  Endures table action fun outcome after => Edits permit key table after ∧
    ∀ a, outcome = .ok a → done a after

/-- Whether a computation only makes edits, whichever calls fail. -/
abbrev Amends {α : Type} (permit : Permit) (key : String) (table : Table) (action : StoreM α) :
    Prop :=
  Revises permit key table action fun _ _ => True

namespace Revises

variable {α β : Type} {done : α → Table → Prop} {action : StoreM α}

/-- A computation that revises a key edits it, step by step. -/
theorem edits (h : Revises permit key table action done) :
    Endures table action fun _ after => Edits permit key table after :=
  h.conseq fun _ _ hafter => hafter.1

/-- What is known behind it may be weakened. -/
theorem mono {more : α → Table → Prop} (h : Revises permit key table action done)
    (hmore : ∀ a after, done a after → more a after) : Revises permit key table action more :=
  h.conseq fun _ after hafter => ⟨hafter.1, fun a heq => hmore a after (hafter.2 a heq)⟩

/-- It amends the key, whatever is known behind it. -/
theorem amends (h : Revises permit key table action done) : Amends permit key table action :=
  h.mono fun _ _ _ => trivial

/-- An answer makes no edits. -/
protected theorem pure {a : α} (h : done a table) : Revises permit key table (pure a) done :=
  Endures.pure ⟨.refl, fun _ heq => by cases heq; exact h⟩

/-- Nor does a failure. -/
protected theorem throw (e : StoreError) : Revises permit key table (throw e) done :=
  Endures.throw ⟨.refl, fun _ heq => by cases heq⟩

/-- A step behind one that revises the key goes on with what is known there. -/
protected theorem bind {first : StoreM α} {next : α → StoreM β} {answer : β → Table → Prop}
    (hfirst : Revises permit key table first done)
    (hnext : ∀ a between, done a between → Revises permit key between (next a) answer) :
    Revises permit key table (first >>= next) answer := by
  apply Endures.bind hfirst
  · exact fun e between h => ⟨h.1, fun _ heq => by cases heq⟩
  · intro a between h
    exact (hnext a between (h.2 a rfl)).conseq fun _ _ hafter => ⟨h.1.trans hafter.1, hafter.2⟩

/-- A read in front of a step. -/
protected theorem read {first : StoreM α} {next : α → StoreM β} {found : α → Prop}
    {answer : β → Table → Prop} (hfirst : Finds table first found)
    (hnext : ∀ a, found a → Revises permit key table (next a) answer) :
    Revises permit key table (first >>= next) answer :=
  hfirst.before (fun _ => ⟨.refl, fun _ heq => by cases heq⟩) hnext

/-- An answer that is changed afterwards. -/
protected theorem map {answer : β → Table → Prop} (f : α → β)
    (h : Revises permit key table action fun a after => answer (f a) after) :
    Revises permit key table (f <$> action) answer := by
  apply Endures.map
  apply Endures.conseq h
  rintro (e | a) after ⟨hedits, hdone⟩
  · exact ⟨hedits, fun _ heq => by cases heq⟩
  · exact ⟨hedits, fun _ heq => by cases heq; exact hdone a rfl⟩

/-- A choice between two computations. -/
protected theorem ite {c : Prop} [Decidable c] {yes no : StoreM α}
    (hyes : c → Revises permit key table yes done)
    (hno : ¬ c → Revises permit key table no done) :
    Revises permit key table (if c then yes else no) done :=
  Endures.ite hyes hno

/-- A check that may end the computation. -/
protected theorem guard {c : Prop} [Decidable c] {e : StoreError} {next : β → StoreM α}
    {go : StoreM α} (h : ¬ c → Revises permit key table go done) :
    Revises permit key table (if c then throw e >>= next else go) done :=
  .ite (fun _ => .throw e) h

/-- A deletion is one edit. -/
protected theorem delete {done : Unit → Table → Prop}
    (hedit : Edit permit key table (table.erase physical))
    (hdone : done () (table.erase physical)) :
    Revises permit key table (Engine.delete physical) done := by
  apply Endures.perform
  · exact ⟨.single hedit, fun _ _ => hdone⟩
  · exact fun _ => ⟨.refl, fun _ heq => by cases heq⟩
  · exact fun _ => ⟨.single hedit, fun _ heq => by cases heq⟩

/-- A step behind a removal. -/
theorem delete_bind {next : Unit → StoreM α} (hedit : Edit permit key table (table.erase physical))
    (hnext : Revises permit key (table.erase physical) (next ()) done) :
    Revises permit key table (Engine.delete physical >>= next) done :=
  .bind (@Revises.delete permit key table physical (fun _ between => between = table.erase physical)
    hedit rfl) fun _ _ heq => heq ▸ hnext

/-- A write of contents is one edit. -/
protected theorem set {contents : Bytes} {done : Unit → Table → Prop}
    (hedit : Edit permit key table (table.insert physical contents))
    (hdone : done () (table.insert physical contents)) :
    Revises permit key table (Engine.set physical contents) done := by
  apply Endures.perform
  · exact ⟨.single hedit, fun _ _ => hdone⟩
  · exact fun _ => ⟨.refl, fun _ heq => by cases heq⟩
  · exact fun _ => ⟨.single hedit, fun _ heq => by cases heq⟩

/-- A step behind a write. -/
theorem write_bind {next : Unit → StoreM α}
    (hedit : ∀ bytes, Frame.encode ⟨value, expireAt⟩ = .ok bytes →
      Edit permit key table (table.insert physical bytes))
    (hnext : ∀ bytes, Frame.encode ⟨value, expireAt⟩ = .ok bytes →
      Revises permit key (table.insert physical bytes) (next ()) done) :
    Revises permit key table (write physical value expireAt >>= next) done := by
  apply endures_write_bind
  · exact fun _ => ⟨.refl, fun _ heq => by cases heq⟩
  · exact fun bytes hencode _ => ⟨.single (hedit bytes hencode), fun _ heq => by cases heq⟩
  · intro bytes hencode
    exact (hnext bytes hencode).conseq fun _ _ hafter =>
      ⟨hafter.1.head (hedit bytes hencode), hafter.2⟩

/-- A frame is written by one edit, if it can be encoded. -/
protected theorem write
    (hedit : ∀ bytes, Frame.encode ⟨value, expireAt⟩ = .ok bytes →
      Edit permit key table (table.insert physical bytes)) :
    Amends permit key table (write physical value expireAt) := by
  apply endures_write
  · exact fun _ => ⟨.refl, fun _ _ => trivial⟩
  · exact fun bytes hencode _ => ⟨.single (hedit bytes hencode), fun _ _ => trivial⟩

/-- What writes nothing makes no edits. -/
theorem of_readOnly (h : ReadOnly action) : Amends permit key table action :=
  (Endures.of_confined h table).conseq fun _ _ hagree =>
    ⟨hagree.eq ▸ .refl, fun _ _ => trivial⟩

end Revises

/-! ## Removing what lies at a key -/

/-- Whether a value is gone with everything that it covers, and nothing else. -/
structure Cleared (key : String) (value : Value) (table after : Table) : Prop where
  gone : ∀ physical, physical = Key.ofText key ∨ Covers key value physical →
    after.get? physical = none
  kept : ∀ physical, physical ≠ Key.ofText key → ¬ Covers key value physical →
    after.get? physical = table.get? physical

/-- Whether the value that lies at the key is gone with everything it covers. -/
def Deleted (key : String) (table after : Table) : Prop :=
  ∃ value expireAt, table.HasFrame (Key.ofText key) ⟨value, expireAt⟩ ∧
    Cleared key value table after

/-- The metadata is removed behind the items. -/
theorem revises_dropValue (hframe : table.HasFrame (Key.ofText key) ⟨value, expireAt⟩)
    (hself : between.get? (Key.ofText key) = table.get? (Key.ofText key))
    (hgone : ∀ physical, Covers key value physical → between.get? physical = none)
    (hkept : ∀ physical, ¬ Covers key value physical →
      between.get? physical = table.get? physical) :
    Revises permit key between (Engine.delete (Key.ofText key)) fun _ after =>
      Cleared key value table after := by
  refine .delete (.dropValue (hframe.congr hself) hgone) ⟨fun physical h => ?_,
    fun physical hne hcovers => ?_⟩
  · rw [Table.get?_erase]
    split
    · rfl
    · rename_i hne
      exact hgone physical (h.resolve_left (Ne.symm hne))
  · rw [Table.get?_erase_of_ne between hne.symm, hkept physical hcovers]

/-- Items are removed one after the other. -/
theorem revises_removeKeys {marker : Key.Marker} {keys : List Bytes}
    (h : ∀ physical ∈ keys, Key.itemStem key marker <+: physical) :
    Revises permit key table (removeKeys keys) fun _ after =>
      ∀ physical, after.get? physical = if physical ∈ keys then none else table.get? physical := by
  induction keys generalizing table with
  | nil => exact .pure fun physical => by simp
  | cons first keys ih =>
      obtain ⟨hfirst, hkeys⟩ := List.forall_mem_cons.mp h
      refine .delete_bind (.dropItem hfirst) ((ih hkeys).mono fun _ after hafter physical => ?_)
      rw [hafter, Table.get?_erase]
      by_cases heq : physical = first
      · simp [heq]
      · simp [heq, Ne.symm heq]

/-- Everything under a stem is removed, and nothing else. -/
theorem revises_removeItems (marker : Key.Marker) :
    Revises permit key table (removeItems key marker) fun _ after =>
      (∀ physical, Key.itemStem key marker <+: physical → after.get? physical = none) ∧
        ∀ physical, ¬ Key.itemStem key marker <+: physical →
          after.get? physical = table.get? physical := by
  refine .read (.scan table _) fun rows hrows => ?_
  subst hrows
  have hstem : ∀ physical ∈ (table.rowsUnder (Key.itemStem key marker)).map (·.1),
      Key.itemStem key marker <+: physical := by
    intro physical hphysical
    obtain ⟨row, hrow, rfl⟩ := List.mem_map.mp hphysical
    exact ((Table.mem_rowsUnder table _ row).mp hrow).2
  refine (revises_removeKeys hstem).mono fun _ after hafter => ⟨fun physical hunder => ?_,
    fun physical houtside => ?_⟩
  · rw [hafter]
    split
    · rfl
    · rename_i hnot
      by_contra hget
      obtain ⟨contents, hcontents⟩ := Option.ne_none_iff_exists'.mp hget
      exact hnot (List.mem_map.mpr
        ⟨(physical, contents), (Table.mem_rowsUnder table _ _).mpr ⟨hcontents, hunder⟩, rfl⟩)
  · rw [hafter, if_neg fun hmem => houtside (hstem physical hmem)]

/-- The items of a list at consecutive indices are removed.  What lies at the
key stays. -/
theorem revises_removeIndices (first : Int64) (count : Nat) :
    Revises permit key table (removeIndices key first count) fun _ after =>
      after.get? (Key.ofText key) = table.get? (Key.ofText key) ∧ table.Thins after ∧
        (first.toInt + count ≤ 9223372036854775808 →
          Deque.Without table key first.toInt (first.toInt + count) after) := by
  induction count generalizing first table with
  | zero => exact .pure ⟨rfl, .refl table, fun _ => .refl table key (by simp)⟩
  | succ count ih =>
      have hself := Table.get?_erase_of_ne table (Deque.listItem_ne_ofText key first)
      have hfirst := Deque.Without.erase table key first
      refine .delete_bind (.dropItem (Key.itemStem_prefix_listItem key first)) ?_
      cases count with
      | zero => exact .pure ⟨hself, .erase table _, fun _ => by simpa using hfirst⟩
      | succ count =>
          refine (ih (first + 1)).mono fun _ after hafter => ⟨hafter.1.trans hself,
            (Table.Thins.erase table _).trans hafter.2.1, fun hroom => ?_⟩
          push_cast at hroom hafter ⊢
          have hnext := @toInt_add_one first (by omega)
          have hrest := hafter.2.2 (by omega)
          have hend : (first + 1).toInt + ((count : Int) + 1) = first.toInt + (count + 1 + 1) := by
            omega
          rw [hend, hnext] at hrest
          exact hfirst.trans hrest (by omega) (by omega)

/-- Metadata that counts no items promises none. -/
theorem not_spans_of_length {handle : ListHandle}
    (hframe : table.HasFrame (Key.ofText key) ⟨.list handle, expireAt⟩)
    (hlength : handle.length = 0) : ¬ Deque.Spans key handle physical := by
  rintro ⟨index, _, hlow, hhigh⟩
  exact Deque.length_ne_zero_of_mem hframe hlow hhigh hlength

/-- A value is removed behind everything that it covers. -/
theorem revises_purge (hframe : table.HasFrame (Key.ofText key) ⟨value, expireAt⟩) :
    Revises permit key table (purge key value) fun _ after => Cleared key value table after := by
  -- A structure whose items are found by a scan.
  have hscan : ∀ marker : Key.Marker, value.marker? = some marker → marker ≠ .list →
      Revises permit key table
        (do
          removeItems key marker
          Engine.delete (Key.ofText key))
        fun _ after => Cleared key value table after := by
    intro marker hmarker hlist
    refine .bind (revises_removeItems marker) fun _ between ⟨hunder, houtside⟩ => ?_
    refine revises_dropValue hframe (houtside _ (Key.not_itemStem_prefix_ofText key marker)) ?_ ?_
    · rintro physical ⟨⟨marker', hmarker', hstem⟩, _⟩
      rw [hmarker] at hmarker'
      cases hmarker'
      exact hunder physical hstem
    · intro physical hcovers
      refine houtside physical fun hstem => hcovers ⟨⟨marker, hmarker, hstem⟩, ?_⟩
      rintro handle rfl
      exact absurd (Option.some.inj hmarker).symm hlist
  have hbare : (∀ physical, ¬ Covers key value physical) →
      Revises permit key table (Engine.delete (Key.ofText key)) fun _ after =>
        Cleared key value table after :=
    fun hnone => revises_dropValue hframe rfl (fun physical h => absurd h (hnone physical))
      fun _ _ => rfl
  have hscalar : value.marker? = none → ∀ physical, ¬ Covers key value physical := by
    rintro hnone physical ⟨⟨marker, hmarker, _⟩, _⟩
    rw [hnone] at hmarker
    cases hmarker
  cases value with
  | list handle =>
      refine .ite (fun _ => ?_) fun hlength => hbare fun physical hcovers =>
        not_spans_of_length hframe (Decidable.not_not.mp hlength) (covers_list.mp hcovers)
      refine .bind (revises_removeIndices _ _) fun _ between ⟨hself, _, hremoved⟩ => ?_
      have htop : handle.tail.toInt ≤ 9223372036854775807 := handle.tail.toInt_le
      have hbottom : handle.head.toInt ≤ 9223372036854775807 := handle.head.toInt_le
      have hspan : spanLength handle.head handle.tail
          = (handle.tail.toInt - handle.head.toInt + 1).toNat := rfl
      have hwithout := hremoved (by omega)
      refine revises_dropValue hframe hself (fun physical hcovers => ?_) fun physical hcovers => ?_
      · obtain ⟨index, rfl, hlow, hhigh⟩ := covers_list.mp hcovers
        rw [hwithout.at_index, if_pos (by omega)]
      · by_cases hitem : ∃ index, physical = Key.listItem key index
        · obtain ⟨index, rfl⟩ := hitem
          rw [hwithout.at_index, if_neg fun hin =>
            hcovers (covers_list.mpr ⟨index, rfl, by omega, by omega⟩)]
        · exact hwithout.elsewhere physical fun index heq => hitem ⟨index, heq⟩
  | map count => exact hscan .map rfl (by decide)
  | set count => exact hscan .set rfl (by decide)
  | series count => exact hscan .series rfl (by decide)
  | bloom handle => exact hscan .bloom rfl (by decide)
  | _ => exact hbare (hscalar rfl)

/-- A value of a kind is deleted item by item and then itself. -/
theorem revises_deleteAs (kind : Kind) :
    Revises permit key table (deleteAs key kind) fun _ after => Deleted key table after :=
  .read (finds_readAs table _ kind) fun _ hframe =>
    (revises_purge hframe.1).mono fun _ _ hcleared => ⟨_, _, hframe.1, hcleared⟩

/-- So is whatever lies at a key. -/
theorem revises_delete :
    Revises permit key table (delete key) fun _ after => Deleted key table after :=
  .read (finds_readExisting table _) fun _ hframe =>
    (revises_purge hframe).mono fun _ _ hcleared => ⟨_, _, hframe, hcleared⟩

/-! ## Writing values -/

/-- What was written as the metadata of an empty list, or as something else, is
read as no other list. -/
theorem eq_empty_of_encode {contents : Bytes} {handle : ListHandle} {next : Option Instant}
    (hvalue : ∀ handle, value = .list handle → handle = .empty)
    (hencode : Frame.encode ⟨value, expireAt⟩ = .ok contents)
    (hdecode : Frame.decode contents = .ok ⟨.list handle, next⟩) : handle = .empty := by
  have hkind := Frame.peekKind_of_decode hdecode
  rw [Frame.peekKind_encode hencode] at hkind
  cases value with
  | list other =>
      have hempty := hvalue other rfl
      subst hempty
      rw [Frame.decode_encode hencode (Or.inl rfl)] at hdecode
      cases hdecode
      rfl
  | _ => cases hkind

/-- A value is written where nothing lies or what is no structure. -/
theorem revises_putValue (hpermit : permit.replaces)
    (hold : ∀ old, table.get? (Key.ofText key) = some old →
      ∃ kind, Frame.peekKind old = .ok kind ∧ kind.isStructure = false)
    (hvalue : ∀ handle, value = .list handle → handle = .empty) :
    Amends permit key table (write (Key.ofText key) value expireAt) :=
  .write fun _ hencode => .putValue hpermit hold fun _ _ => eq_empty_of_encode hvalue hencode

/-- A key that is let pass is not reserved. -/
theorem finds_requireUnreserved (table : Table) (key : String) :
    Finds table (requireUnreserved key) fun _ => Key.isReserved key = false := by
  unfold requireUnreserved
  cases hreserved : Key.isReserved key with
  | true => exact .throw _
  | false => exact .pure rfl

/-- A structure is created empty, at a key that is not reserved. -/
theorem revises_create (hpermit : Key.isReserved key = false → permit.replaces)
    (hvalue : ∀ handle, value = .list handle → handle = .empty) :
    Amends permit key table (create key value) := by
  refine .read (finds_requireUnreserved table key) fun _ hunreserved => ?_
  refine .read (.get table _) fun found hfound => .guard fun hnone => ?_
  refine revises_putValue (hpermit hunreserved) (fun old hold => ?_) hvalue
  rw [← hfound] at hold
  simp [hold] at hnone

/-- A plain value is no list. -/
theorem not_list_of_kind (h : value.kind.isStructure = false) :
    ∀ handle, value = .list handle → handle = .empty := by
  rintro handle rfl
  cases h

/-- A value is set at a key that is not reserved. -/
theorem revises_set (hpermit : Key.isReserved key = false → permit.replaces) (value : Value) :
    Amends permit key table (set key value) := by
  refine .guard fun hvalue => ?_
  have hvalue := not_list_of_kind (Bool.not_eq_true _ ▸ hvalue)
  refine .read (finds_requireUnreserved table key) fun _ hunreserved => ?_
  refine .read (.get table _) fun found hfound => ?_
  cases found with
  | none =>
      refine revises_putValue (hpermit hunreserved) (fun old hold => ?_) hvalue
      rw [← hfound] at hold
      cases hold
  | some bytes =>
      refine .read (finds_lift table _) fun kind hkind => .guard fun hscalar => ?_
      refine revises_putValue (hpermit hunreserved) (fun old hold => ?_) hvalue
      rw [← hfound] at hold
      cases hold
      exact ⟨kind, hkind, by simpa using hscalar⟩

/-- A value is replaced by what is made of it, if neither is a structure. -/
theorem revises_update {α : Type} {next : Option Value → Except StoreError (Value × α)}
    (hpermit : permit.replaces)
    (hnext : ∀ old value answer, next old = .ok (value, answer) →
      value.kind.isStructure = false ∧ ∀ v, old = some v → v.kind.isStructure = false) :
    Amends permit key table (update key next) := by
  refine .read (finds_read table _) fun found hfound => ?_
  split
  · exact .throw _
  · rename_i value answer heq
    obtain ⟨hvalue, hold⟩ := hnext _ value answer heq
    refine .bind (revises_putValue hpermit (fun old hget => ?_) (not_list_of_kind hvalue))
      fun _ _ _ => .pure trivial
    cases found with
    | none =>
        rw [hfound] at hget
        cases hget
    | some frame =>
        obtain ⟨bytes, hbytes, hdecode⟩ := hfound
        rw [hbytes] at hget
        cases hget
        exact ⟨_, Frame.peekKind_of_decode hdecode, hold _ rfl⟩

/-- A value gets another expiry. -/
theorem revises_restamp (hframe : table.HasFrame (Key.ofText key) ⟨value, expireAt⟩)
    (next : Option Instant) : Amends permit key table (write (Key.ofText key) value next) :=
  .write fun _ hencode => .restamp hframe hencode

/-! ## Structures that count their items -/

/-- A count that is read stands in the metadata. -/
theorem finds_readCount (table : Table) (key : String) (counted : Counted) :
    Finds table (readCount key counted) fun found =>
      table.HasFrame (Key.ofText key) ⟨counted.metadata found.1, found.2⟩ := by
  apply Finds.bind (finds_readAs table _ counted.kind)
  rintro ⟨value, expireAt⟩ ⟨hframe, hkind⟩
  cases counted <;> cases value <;> first
    | exact .pure hframe
    | cases hkind

/-- The metadata of a structure names its marker. -/
theorem marker?_metadata (counted : Counted) (count : UInt64) :
    (counted.metadata count).marker? = some counted.marker := by
  cases counted <;> rfl

section Counted

variable {marker : Key.Marker} {metadata : UInt64 → Value} {count : UInt64}
  (hframe : table.HasFrame (Key.ofText key) ⟨metadata count, expireAt⟩)
  (hmetadata : ∀ count, (metadata count).marker? = some marker) (hmarker : marker ≠ .list)

include hframe hmetadata hmarker

/-- Another count is written into the metadata. -/
theorem revises_recount (next : UInt64) :
    Amends permit key table (write (Key.ofText key) (metadata next) expireAt) :=
  .write fun _ hencode => .recount hframe (hmetadata count) hmarker (hmetadata next) hencode

/-- All items are removed and the metadata is written anew. -/
theorem revises_clear (next : UInt64) :
    Amends permit key table
      (do
        removeItems key marker
        write (Key.ofText key) (metadata next) expireAt) := by
  refine .bind (revises_removeItems marker) fun _ between hbetween => ?_
  exact revises_recount (hframe.congr
    (hbetween.2 _ (Key.not_itemStem_prefix_ofText key marker))) hmetadata hmarker next

variable (hphysical : Key.itemStem key marker <+: physical)

include hphysical

/-- The metadata is written behind an item. -/
theorem revises_record (item : Bytes) :
    Amends permit key (table.insert physical item)
      (do
        let count ← increment count
        write (Key.ofText key) (metadata count) expireAt
        return count) := by
  have hframe := hframe.congr (Table.get?_insert_of_ne table item (Tallied.ne_ofText hphysical))
  refine .read (.of_readOnly (confined_increment count)) fun next _ => ?_
  exact .bind (revises_recount hframe hmetadata hmarker next) fun _ _ _ => .pure trivial

/-- An item is put in front of its count. -/
theorem revises_putItem (hpoint : marker = .series → Series.IsPoint key physical)
    (value : Value) :
    Amends permit key table
      (do
        let known := (← Engine.get physical).isSome
        write physical value none
        if known then return count
        let count ← increment count
        write (Key.ofText key) (metadata count) expireAt
        return count) := by
  refine .read (.get table physical) fun found _ => ?_
  refine .write_bind (fun _ _ => .putItem hframe (hmetadata count) hmarker hphysical hpoint)
    fun item _ => ?_
  exact .ite (fun _ => .pure trivial) fun _ =>
    revises_record hframe hmetadata hmarker hphysical item

/-- So is an item that is new. -/
theorem revises_putNewItem (hpoint : marker = .series → Series.IsPoint key physical)
    (value : Value) :
    Amends permit key table
      (do
        if (← Engine.get physical).isSome then return count
        write physical value none
        let count ← increment count
        write (Key.ofText key) (metadata count) expireAt
        return count) := by
  refine .read (.get table physical) fun found _ => .ite (fun _ => .pure trivial) fun _ => ?_
  exact .write_bind (fun _ _ => .putItem hframe (hmetadata count) hmarker hphysical hpoint)
    fun item _ => revises_record hframe hmetadata hmarker hphysical item

/-- An item is taken in front of its count. -/
theorem revises_takeItem :
    Amends permit key table
      (do
        if (← Engine.get physical).isNone then return count
        Engine.delete physical
        write (Key.ofText key) (metadata (decrement count)) expireAt
        return decrement count) := by
  refine .read (.get table physical) fun found _ => .ite (fun _ => .pure trivial) fun _ => ?_
  refine .delete_bind (.dropItem hphysical) ?_
  have hframe := hframe.congr (Table.get?_erase_of_ne table (Tallied.ne_ofText hphysical))
  exact .bind (revises_recount hframe hmetadata hmarker _) fun _ _ _ => .pure trivial

end Counted

end Store
end StructuredStore
