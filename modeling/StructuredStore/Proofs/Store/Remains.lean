import StructuredStore.Proofs.Store.Preservation
import StructuredStore.Proofs.Store.Revisions

/-!
# What deleting leaves behind

The items of a list are removed by the indices of its metadata, those of other
structures by a scan of their stem.  Both leave nothing behind as long as the
metadata promises every item that lies there, which each edit keeps.  An item
that a push wrote without the metadata that counts it lies beside the list:
deleting the list leaves it where it is, and a list created at the key later
gets it from a repair.

Main definitions:

- `Accounted`: each item lies where the metadata promises it.

Main results:

- `Edit.accounted`, `Torn.accounted`: what edits and broken pushes keep.
- `Session.run_delete_eq`: what a deletion leaves after any run.
-/

namespace StructuredStore

open Engine

/-! ## Markers of kinds -/

/-- The kind of the structures with the marker. -/
def Key.Marker.kind : Key.Marker → Kind
  | .list => .list
  | .map => .map
  | .set => .set
  | .bloom => .bloom
  | .series => .series

theorem Key.Marker.isStructure_kind (marker : Key.Marker) : marker.kind.isStructure = true := by
  cases marker <;> rfl

theorem Key.Marker.eq_list_of_kind {marker : Key.Marker} (h : marker.kind = .list) :
    marker = .list := by
  cases marker <;> first | rfl | cases h

theorem Value.marker?_eq_some_iff {value : Value} {marker : Key.Marker} :
    value.marker? = some marker ↔ value.kind = marker.kind := by
  cases value <;> cases marker <;> simp [Value.marker?, Value.kind, Key.Marker.kind]

namespace Store

variable {permit : Permit} {key : String} {table after : Table} {physical : Bytes}
  {tracked : Key.Marker → Prop}

/-! ## Items and metadata -/

/-- Whether the contents at a key are metadata of the marker's kind and, if they
can be read, promise the item. -/
structure Promises (key : String) (contents : Bytes) (marker : Key.Marker) (physical : Bytes) :
    Prop where
  peekKind : Frame.peekKind contents = .ok marker.kind
  spans : ∀ handle expireAt, Frame.decode contents = .ok ⟨.list handle, expireAt⟩ →
    Deque.Spans key handle physical

/-- Whether each item under one of the tracked markers is promised by the
metadata at the key. -/
def Accounted (tracked : Key.Marker → Prop) (key : String) (table : Table) : Prop :=
  ∀ marker physical, tracked marker → Key.itemStem key marker <+: physical →
    table.get? physical ≠ none →
    ∃ contents, table.get? (Key.ofText key) = some contents ∧ Promises key contents marker physical

theorem accounted_empty (tracked : Key.Marker → Prop) (key : String) :
    Accounted tracked key .empty :=
  fun _ _ _ _ hget => absurd rfl hget

/-- The frame at the key covers the items that lie there. -/
theorem Accounted.covers (h : Accounted tracked key table) {marker : Key.Marker} {value : Value}
    {expireAt : Option Instant} (hmarker : tracked marker)
    (hstem : Key.itemStem key marker <+: physical) (hget : table.get? physical ≠ none)
    (hframe : table.HasFrame (Key.ofText key) ⟨value, expireAt⟩) :
    value.marker? = some marker ∧ Covers key value physical := by
  obtain ⟨contents, hcontents, hpromises⟩ := h marker physical hmarker hstem hget
  obtain ⟨contents', hcontents', hdecode⟩ := hframe
  rw [hcontents] at hcontents'
  cases hcontents'
  have hkind := Frame.peekKind_of_decode hdecode
  rw [hpromises.peekKind] at hkind
  have hvalue : value.marker? = some marker :=
    Value.marker?_eq_some_iff.mpr (Except.ok.inj hkind).symm
  refine ⟨hvalue, ⟨marker, hvalue, hstem⟩, ?_⟩
  rintro handle rfl
  exact hpromises.spans handle expireAt hdecode

/-- Items stay promised if the metadata and the items under each stem stay or go. -/
theorem Accounted.thin (h : Accounted tracked key table)
    (hself : after.get? (Key.ofText key) = table.get? (Key.ofText key))
    (hthins : table.Thins after) : Accounted tracked key after := by
  intro marker physical hmarker hstem hget
  rw [hself]
  apply h marker physical hmarker hstem
  rcases hthins physical with hsame | hgone
  · rwa [← hsame]
  · exact absurd hgone hget

/-- Items are promised by new metadata if it promises what lies there. -/
theorem Accounted.insert_ofText (h : Accounted tracked key table) {contents : Bytes}
    (hnew : ∀ marker physical old, tracked marker → Key.itemStem key marker <+: physical →
      table.get? physical ≠ none → table.get? (Key.ofText key) = some old →
      Promises key old marker physical → Promises key contents marker physical) :
    Accounted tracked key (table.insert (Key.ofText key) contents) := by
  intro marker physical hmarker hstem hget
  rw [Table.get?_insert_of_ne table contents (Tallied.ne_ofText hstem).symm] at hget
  obtain ⟨old, hold, hpromises⟩ := h marker physical hmarker hstem hget
  exact ⟨contents, Table.get?_insert_self table _ contents,
    hnew marker physical old hmarker hstem hget hold hpromises⟩

/-- Items are promised after another one was written that is. -/
theorem Accounted.insert_item (h : Accounted tracked key table) {marker : Key.Marker}
    {item old : Bytes} (hstem : Key.itemStem key marker <+: physical)
    (hold : table.get? (Key.ofText key) = some old)
    (hnew : tracked marker → Promises key old marker physical) :
    Accounted tracked key (table.insert physical item) := by
  intro other otherPhysical hmarker hother hget
  rw [Table.get?_insert_of_ne table item (Tallied.ne_ofText hstem)]
  rw [Table.get?_insert] at hget
  split at hget
  · rename_i heq
    subst heq
    cases Key.marker_eq_of_stems hstem hother
    exact ⟨old, hold, hnew hmarker⟩
  · exact h other otherPhysical hmarker hother hget

/-- Metadata of a structure that is no list promises every item. -/
theorem Promises.of_ne_list {contents : Bytes} {marker : Key.Marker} (hmarker : marker ≠ .list)
    (hkind : Frame.peekKind contents = .ok marker.kind) :
    Promises key contents marker physical := by
  refine ⟨hkind, fun handle expireAt hdecode => ?_⟩
  rw [Frame.peekKind_of_decode hdecode] at hkind
  exact absurd (Key.Marker.eq_list_of_kind (Except.ok.inj hkind).symm) hmarker

/-- Metadata that can be read promises what it covers. -/
theorem Covers.promises {value : Value} {expireAt : Option Instant} {contents : Bytes}
    {marker : Key.Marker} (hcovers : Covers key value physical)
    (hmarker : value.marker? = some marker)
    (hdecode : Frame.decode contents = .ok ⟨value, expireAt⟩) :
    Promises key contents marker physical := by
  constructor
  · rw [Frame.peekKind_of_decode hdecode]
    exact congrArg _ (Value.marker?_eq_some_iff.mp hmarker)
  · intro handle next hlist
    rw [hdecode] at hlist
    cases hlist
    exact hcovers.2 handle rfl

/-! ## Edits -/

theorem grown_spans {handle : ListHandle} {side : Deque.End} {count : Nat}
    (hdescribes : Deque.Describes handle count) (hroom : ¬ Deque.Full handle side)
    (h : Deque.Spans key handle physical ∨
      physical = Key.listItem key (Deque.newIndex handle side)) :
    Deque.Spans key (Deque.grown handle side) physical := by
  have htail := hdescribes.tail
  have hgrown := (Deque.describes_grown hdescribes hroom).tail
  cases side with
  | left =>
      have hback := toInt_sub_one (Deque.lt_of_ne_minValue (not_or.mp hroom).2)
      simp only [Deque.grown] at hgrown ⊢
      rcases h with ⟨index, rfl, hlow, hhigh⟩ | rfl
      · exact ⟨index, rfl, by simp only; omega, by simp only; omega⟩
      · exact ⟨_, rfl, by simp only [Deque.newIndex]; omega, by simp only [Deque.newIndex]; omega⟩
  | right =>
      have hnext := toInt_add_one (Deque.lt_of_ne_maxValue (not_or.mp hroom).2)
      simp only [Deque.grown] at hgrown ⊢
      rcases h with ⟨index, rfl, hlow, hhigh⟩ | rfl
      · exact ⟨index, rfl, by simp only; omega, by simp only; omega⟩
      · exact ⟨_, rfl, by simp only [Deque.newIndex]; omega, by simp only [Deque.newIndex]; omega⟩

/-- An edit leaves no item that the metadata does not promise. -/
theorem Edit.accounted (hedit : Edit permit key table after) (h : Accounted tracked key table) :
    Accounted tracked key after := by
  cases hedit with
  | dropItem hstem =>
      exact h.thin (Table.get?_erase_of_ne table (Tallied.ne_ofText hstem)) (.erase table _)
  | dropValue hframe hbare =>
      intro marker physical hmarker hstem hget
      rw [Table.get?_erase_of_ne table (Tallied.ne_ofText hstem).symm] at hget
      exact absurd (hbare physical (h.covers hmarker hstem hget hframe).2) hget
  | putValue hpermit hold hnew =>
      refine h.insert_ofText fun marker physical old _ _ _ hget hpromises => ?_
      obtain ⟨kind, hkind, hscalar⟩ := hold old hget
      rw [hpromises.peekKind] at hkind
      cases hkind
      rw [marker.isStructure_kind] at hscalar
      cases hscalar
  | restamp hframe hencode =>
      refine h.insert_ofText fun marker physical _ htracked hstem hget _ _ => ?_
      obtain ⟨hmarker, hcovers⟩ := h.covers htracked hstem hget hframe
      exact hcovers.promises hmarker (Frame.decode_encode hencode hframe.storable)
  | recount hframe hvalue hmarker hnext hencode =>
      refine h.insert_ofText fun marker physical _ htracked hstem hget _ _ => ?_
      have hsame := (h.covers htracked hstem hget hframe).1
      rw [hvalue] at hsame
      cases hsame
      apply Promises.of_ne_list hmarker
      rw [Frame.peekKind_encode hencode, Value.marker?_eq_some_iff.mp hnext]
  | putItem hframe hvalue hmarker hstem _ =>
      obtain ⟨old, hold, hdecode⟩ := hframe
      refine h.insert_item hstem hold fun _ => .of_ne_list hmarker ?_
      rw [Frame.peekKind_of_decode hdecode, Value.marker?_eq_some_iff.mp hvalue]
  | setItem hframe hlow hhigh hitem =>
      obtain ⟨old, hold, hdecode⟩ := hframe
      exact h.insert_item (Key.itemStem_prefix_listItem key _) hold fun _ =>
        (covers_list.mpr ⟨_, rfl, hlow, hhigh⟩).promises rfl hdecode
  | copyItem hframe hlow hle hsource hge =>
      have hspan : ∀ index, tracked .list → table.get? (Key.listItem key index) ≠ none →
          Deque.Spans key _ (Key.listItem key index) := fun index htracked hget =>
        covers_list.mp (h.covers htracked (Key.itemStem_prefix_listItem key index) hget hframe).2
      obtain ⟨old, hold, hdecode⟩ := hframe
      refine h.insert_item (Key.itemStem_prefix_listItem key _) hold fun htracked => ?_
      obtain ⟨low, hlowEq, hlowSpan⟩ := hspan _ htracked hlow
      obtain ⟨source, hsourceEq, hsourceSpan⟩ := hspan _ htracked (by rw [hsource]; simp)
      rw [Key.listItem_inj] at hlowEq hsourceEq
      subst hlowEq hsourceEq
      exact (covers_list.mpr ⟨_, rfl, by omega, by omega⟩).promises rfl hdecode
  | rehandle hframe hencode hreadable hnext =>
      refine h.insert_ofText fun marker physical _ htracked hstem hget _ _ => ?_
      obtain ⟨hmarker, hcovers⟩ := h.covers htracked hstem hget hframe
      cases hmarker
      refine ⟨Frame.peekKind_encode hencode, fun handle expireAt hdecode => ?_⟩
      have hsame := Frame.handle_eq_of_decode hencode hdecode
      subst hsame
      exact (hnext (Frame.storable_of_decode hdecode)).2 physical hget (covers_list.mp hcovers)
  | push hframe hdescribes hroom hitem hencode =>
      have hdecode := Frame.decode_encode hencode
        (Deque.describes_grown hdescribes hroom).storable
      intro marker physical htracked hstem hget
      refine ⟨_, Table.get?_insert_self _ _ _, ?_⟩
      rw [Table.get?_insert_of_ne _ _ (Tallied.ne_ofText hstem).symm, Table.get?_insert] at hget
      split at hget
      · rename_i heq
        subst heq
        cases Key.marker_eq_of_stems hstem (Key.itemStem_prefix_listItem key _)
        exact (covers_list.mpr (grown_spans hdescribes hroom (Or.inr rfl))).promises rfl hdecode
      · obtain ⟨hmarker, hcovers⟩ := h.covers htracked hstem hget hframe
        cases hmarker
        exact (covers_list.mpr (grown_spans hdescribes hroom
          (Or.inl (covers_list.mp hcovers)))).promises rfl hdecode

/-- An item that a broken push leaves beside a list is no item of another
structure. -/
theorem Torn.accounted (htorn : Torn permit key table after) (hlist : ¬ tracked .list)
    (h : Accounted tracked key table) : Accounted tracked key after := by
  obtain ⟨handle, expireAt, index, item, hframe, _, rfl⟩ := htorn
  obtain ⟨old, hold, _⟩ := hframe
  exact h.insert_item (Key.itemStem_prefix_listItem key index) hold fun htracked =>
    absurd htracked hlist

theorem Torn.regular (htorn : Torn permit key table after) (h : Deque.Regular table key) :
    Deque.Regular after key := by
  obtain ⟨_, _, index, item, _, _, rfl⟩ := htorn
  exact h.congr (Table.get?_insert_of_ne table item (Deque.listItem_ne_ofText key index))

/-- An edit leaves metadata that can be read with a number of items. -/
theorem Edit.regular (hedit : Edit permit key table after) (h : Deque.Regular table key) :
    Deque.Regular after key := by
  cases hedit with
  | dropItem hstem => exact h.congr (Table.get?_erase_of_ne table (Tallied.ne_ofText hstem))
  | dropValue _ _ =>
      intro handle expireAt hframe
      exact absurd (Table.get?_erase_self table _) hframe.get?_ne_none
  | putValue hpermit hold hnew =>
      refine .of_insert fun handle expireAt hdecode => ?_
      rw [hnew handle expireAt hdecode]
      exact ⟨0, Deque.describes_empty⟩
  | restamp hold hencode =>
      refine .of_insert fun handle expireAt hdecode => ?_
      rw [Frame.decode_encode hencode hold.storable] at hdecode
      cases hdecode
      exact h handle _ hold
  | recount hold hvalue hmarker hnext hencode =>
      refine .of_insert fun handle expireAt hdecode => ?_
      have hkind := Frame.peekKind_of_decode hdecode
      rw [Frame.peekKind_encode hencode, Value.marker?_eq_some_iff.mp hnext] at hkind
      exact absurd (Key.Marker.eq_list_of_kind (Except.ok.inj hkind)) hmarker
  | putItem _ _ _ hstem _ =>
      exact h.congr (Table.get?_insert_of_ne table _ (Tallied.ne_ofText hstem))
  | setItem _ _ _ _ =>
      exact h.congr (Table.get?_insert_of_ne table _ (Deque.listItem_ne_ofText key _))
  | copyItem _ _ _ _ _ =>
      exact h.congr (Table.get?_insert_of_ne table _ (Deque.listItem_ne_ofText key _))
  | rehandle hold hencode hreadable hnext =>
      refine .of_insert fun handle expireAt hdecode => ?_
      have hsame := Frame.handle_eq_of_decode hencode hdecode
      subst hsame
      exact (hnext (Frame.storable_of_decode hdecode)).1
  | push hold hdescribes hroom hitem hencode =>
      refine .of_insert fun handle expireAt hdecode => ?_
      rw [Frame.handle_eq_of_decode hencode hdecode]
      exact ⟨_, Deque.describes_grown hdescribes hroom⟩

/-! ## Runs on one key -/

/-- Whether only one key owns rows, its metadata, if it can be read as that of a
list, counts items, and its items of tracked markers are promised. -/
structure Tended (tracked : Key.Marker → Prop) (key : String) (table : Table) : Prop where
  owned : ∀ physical, table.get? physical ≠ none → Key.Owns key physical
  regular : Deque.Regular table key
  accounted : Accounted tracked key table

theorem tended_empty (tracked : Key.Marker → Prop) (key : String) : Tended tracked key .empty :=
  ⟨fun _ hget => absurd rfl hget, fun _ _ hframe => absurd rfl hframe.get?_ne_none,
    accounted_empty tracked key⟩

theorem Edits.tended (hedits : Edits permit key table after) (hregular : Deque.Regular table key)
    (haccounted : Accounted tracked key table) :
    Deque.Regular after key ∧ Accounted tracked key after := by
  induction hedits with
  | refl => exact ⟨hregular, haccounted⟩
  | tail _ hedit ih => exact ⟨hedit.regular ih.1, hedit.accounted ih.2⟩

/-- An operation on the key leaves its items promised, unless it is a push that
wrote an item and not the metadata. -/
theorem Tended.endures_perform (h : Tended tracked key table) (env : Environment) {op : Operation}
    (hkey : op.key? = some key) (hschedules : op.schedules = false) :
    Endures table (op.perform env) fun _ after =>
      (tracked .list → (∃ side value, op = .listPush key side value) →
        after.get? (Key.ofText key) = table.get? (Key.ofText key) → after = table) →
      Tended tracked key after := by
  have hallowed : op.Allowed .all key table :=
    ⟨fun _ => trivial, fun _ _ _ _ => trivial, fun _ hreadable => hreadable.elim⟩
  apply ((Operation.endures_edits env hkey hschedules h.regular hallowed).and
    (.of_confined (Operation.confined_perform env hkey hschedules) table)).conseq
  rintro outcome after ⟨hend, hagree⟩ hwhole
  have howned : ∀ physical, after.get? physical ≠ none → Key.Owns key physical := by
    intro physical hget
    by_contra hother
    rw [hagree physical hother] at hget
    exact hother (h.owned physical hget)
  rcases hend with hedits | ⟨hpush, _, htorn⟩
  · obtain ⟨hregular, haccounted⟩ := hedits.tended h.regular h.accounted
    exact ⟨howned, hregular, haccounted⟩
  · by_cases hlist : tracked .list
    · obtain ⟨_, _, index, item, _, _, rfl⟩ := id htorn
      have hself := Table.get?_insert_of_ne table item (Deque.listItem_ne_ofText key index)
      rwa [hwhole hlist hpush hself]
    · exact ⟨howned, htorn.regular h.regular, htorn.accounted hlist h.accounted⟩

/-- Whether a row lies under the stem of a list that does not promise it. -/
structure Beside (key : String) (table : Table) (physical : Bytes) : Prop where
  stem : Key.itemStem key .list <+: physical
  not_spans : ∀ handle expireAt, table.HasFrame (Key.ofText key) ⟨.list handle, expireAt⟩ →
    ¬ Deque.Spans key handle physical

/-- A deletion leaves the items beside a list and no other row. -/
theorem Tended.get?_deleted (h : Tended (· ≠ .list) key table) (hdeleted : Deleted key table after)
    (physical contents : Bytes) : after.get? physical = some contents ↔
      table.get? physical = some contents ∧ Beside key table physical := by
  obtain ⟨value, expireAt, hframe, hcleared⟩ := hdeleted
  have hcovers : Covers key value physical → after.get? physical = none :=
    fun hcovers => hcleared.gone physical (Or.inr hcovers)
  constructor
  · intro hafter
    have hne : physical ≠ Key.ofText key := by
      rintro rfl
      rw [hcleared.gone _ (Or.inl rfl)] at hafter
      cases hafter
    have huncovered : ¬ Covers key value physical := by
      intro hc
      rw [hcovers hc] at hafter
      cases hafter
    rw [hcleared.kept physical hne huncovered] at hafter
    have hthere : table.get? physical ≠ none := by
      rw [hafter]
      exact Option.some_ne_none contents
    obtain ⟨marker, hstem⟩ := (h.owned physical hthere).resolve_left hne
    have hmarker : marker = .list := by
      by_contra hother
      exact huncovered (h.accounted.covers hother hstem hthere hframe).2
    subst hmarker
    refine ⟨hafter, hstem, fun handle next hlist hspans => huncovered ?_⟩
    cases hframe.unique hlist
    exact covers_list.mpr hspans
  · rintro ⟨hthere, hstem, hbeside⟩
    rw [hcleared.kept physical, hthere]
    · rintro rfl
      exact Key.not_itemStem_prefix_ofText key .list hstem
    · rintro ⟨⟨marker, hmarker, hother⟩, hspans⟩
      cases Key.marker_eq_of_stems hstem hother
      cases value with
      | list handle => exact hbeside handle expireAt hframe (hspans handle rfl)
      | _ => cases hmarker

/-- Where every item is promised, a deletion leaves nothing. -/
theorem Tended.eq_empty_of_deleted (h : Tended (fun _ => True) key table)
    (hdeleted : Deleted key table after) : after = .empty := by
  apply Table.ext_get?
  intro physical
  obtain ⟨value, expireAt, hframe, hcleared⟩ := hdeleted
  by_contra hafter
  have hafter : after.get? physical ≠ none := hafter
  have hne : physical ≠ Key.ofText key := fun heq => hafter (hcleared.gone physical (Or.inl heq))
  have huncovered : ¬ Covers key value physical :=
    fun hcovers => hafter (hcleared.gone physical (Or.inr hcovers))
  rw [hcleared.kept physical hne huncovered] at hafter
  obtain ⟨marker, hstem⟩ := (h.owned physical hafter).resolve_left hne
  exact huncovered (h.accounted.covers trivial hstem hafter hframe).2

end Store

namespace Session

open Store

/-- Whether each push of a run that leaves the metadata as it was leaves
everything as it was. -/
def PushesWhole (session : Session) (key : String) (steps : List Step) : Prop :=
  ∀ front side value back, steps = front ++ .operation (.listPush key side value) :: back →
    let before := (session.run front).2.engine.table
    let after := ((session.run front).2.perform (.listPush key side value)).2.engine.table
    after.get? (Key.ofText key) = before.get? (Key.ofText key) → after = before

/-- Items are promised after every run on one key, whichever calls fail; those of
lists if no push wrote its item only. -/
theorem run_tended (session : Session) (hstart : session.engine.table = .empty) (key : String)
    (steps : List Step)
    (hops : ∀ op ∈ operations steps, op.key? = some key ∧ op.schedules = false)
    {tracked : Key.Marker → Prop} (hwhole : tracked .list → session.PushesWhole key steps) :
    Tended tracked key (session.run steps).2.engine.table := by
  have hempty : Tended tracked key session.engine.table := hstart ▸ tended_empty tracked key
  refine run_keeps steps session hempty fun front op back hsplit h => ?_
  have hop : op ∈ operations steps := hsplit ▸ mem_operations front op back
  obtain ⟨hkey, hschedules⟩ := hops op hop
  apply of_endures (h.endures_perform (session.run front).2.environment hkey hschedules)
  rintro hlist ⟨side, value, rfl⟩ hsame
  exact hwhole hlist front side value back hsplit hsame

/-- Deleting what lies at a key after any run on it, whichever calls failed,
leaves exactly the items that lie beside a list.  If no push wrote its item and
not the metadata, the store is empty, and what is created at the key later has
nothing to inherit. -/
theorem run_delete_eq (session : Session) (hstart : session.engine.table = .empty) (key : String)
    (steps : List Step)
    (hops : ∀ op ∈ operations steps, op.key? = some key ∧ op.schedules = false)
    (env : Environment) {op : Operation} {faults : Option FaultPlan} {reply : Reply} {left : Engine}
    (hkey : op.key? = some key) (hdeletes : op.deletes = true)
    (hdelete : (op.perform env).run ⟨(session.run steps).2.engine.table, faults⟩ =
      (.ok reply, left)) :
    (∀ physical contents, left.table.get? physical = some contents ↔
      (session.run steps).2.engine.table.get? physical = some contents ∧
        Beside key (session.run steps).2.engine.table physical) ∧
      (session.PushesWhole key steps → left.table = .empty) := by
  have hdeleted : Deleted key (session.run steps).2.engine.table left.table :=
    ((@Operation.revises_deletes .all key _ env op hkey hdeletes).of_run hdelete).2 reply rfl
  constructor
  · exact (run_tended session hstart key steps hops fun hlist => absurd rfl hlist).get?_deleted
      hdeleted
  · intro hwhole
    exact (run_tended session hstart key steps hops fun _ => hwhole).eq_empty_of_deleted hdeleted

/-- A pop breaks off behind the removal of its item.  The metadata still counts
two items; the deletion leaves nothing. -/
theorem run_delete_eq_broken_pop :
    let session : Session :=
      ⟨⟨.empty, some (.after [.set] 5)⟩, ⟨0⟩, ⟨60, by decide, by decide⟩, .none⟩
    let steps : List Step := [.operation (.listCreate "key"),
      .operation (.listPush "key" .right .null), .operation (.listPush "key" .right .null),
      .operation (.listPop "key" .left)]
    let table := (session.run steps).2.engine.table
    let deleted := ((Operation.delete "key").perform session.environment).run (.ofTable table)
    session.engine.table = .empty ∧
      (∀ op ∈ operations steps, op.key? = some "key" ∧ op.schedules = false) ∧
      (table.get? (Key.listItem "key" 0)).isNone = true ∧
      (table.get? (Key.listItem "key" 1)).isSome = true ∧
      (Operation.delete "key").key? = some "key" ∧ (Operation.delete "key").deletes = true ∧
      deleted.1.toOption.isSome = true ∧ session.PushesWhole "key" steps ∧
      deleted.2.table = .empty := by
  intro session steps table deleted
  have hops : ∀ op ∈ operations steps, op.key? = some "key" ∧ op.schedules = false := by
    simp [operations, steps, Step.operation?, Operation.key?, Operation.schedules]
  have hrows : (table.get? (Key.listItem "key" 0)).isNone = true ∧
      (table.get? (Key.listItem "key" 1)).isSome = true ∧ deleted.1.toOption.isSome = true := by
    decide +kernel
  obtain ⟨reply, left, hdelete⟩ : ∃ reply left, deleted = (.ok reply, left) := by
    rcases hdeleted : deleted with ⟨outcome, left⟩
    rw [hdeleted] at hrows
    cases outcome with
    | ok reply => exact ⟨reply, left, rfl⟩
    | error _ => cases hrows.2.2
  have hwhole : session.PushesWhole "key" steps := by
    intro front side value back hsplit before after hsame
    rcases front with - | ⟨_, - | ⟨_, - | ⟨_, - | ⟨_, front⟩⟩⟩⟩ <;>
      simp only [steps, List.cons_append, List.nil_append, List.cons.injEq, Step.operation.injEq,
        Operation.listPush.injEq, true_and, reduceCtorEq, false_and, and_false, List.nil_eq,
        List.append_eq_nil_iff] at hsplit
    · obtain ⟨rfl, ⟨rfl, rfl⟩, rfl⟩ := hsplit
      exact absurd hsame (by decide +kernel)
    · obtain ⟨rfl, rfl, ⟨rfl, rfl⟩, rfl⟩ := hsplit
      exact absurd hsame (by decide +kernel)
  have hempty : left.table = .empty :=
    (run_delete_eq session rfl "key" steps hops session.environment rfl rfl hdelete).2 hwhole
  exact ⟨rfl, hops, hrows.1, hrows.2.1, rfl, rfl, hrows.2.2, hwhole, by rwa [hdelete]⟩

/-- A push breaks off behind the write of its item.  The deletion succeeds and
leaves the item; a list created at the key gets it from a repair. -/
theorem run_delete_broken_push :
    let session : Session :=
      ⟨⟨.empty, some (.after [.set] 2)⟩, ⟨0⟩, ⟨60, by decide, by decide⟩, .none⟩
    let steps : List Step := [.operation (.listCreate "key"),
      .operation (.listPush "key" .right .null)]
    let table := (session.run steps).2.engine.table
    let deleted := ((Operation.delete "key").perform session.environment).run (.ofTable table)
    let created := ((Operation.listCreate "key").perform session.environment).run deleted.2
    let repaired := (Repair.repair "key").run created.2
    deleted.1.toOption.isSome = true ∧
      deleted.2.table.rows.map (·.1) = [Key.listItem "key" 0] ∧
      created.1.toOption.isSome = true ∧
      repaired.1.toOption = some ⟨.list, 0, 1, true⟩ ∧
      repaired.2.table.HasFrame (Key.ofText "key") ⟨.list ⟨0, 0, 1⟩, none⟩ := by
  intro session steps table deleted created repaired
  have hframe : repaired.2.table.HasFrame (Key.ofText "key") ⟨.list ⟨0, 0, 1⟩, none⟩ :=
    ⟨0x10 :: List.replicate 16 0 ++ 1 :: List.replicate 15 0, by decide +kernel,
      by decide +kernel⟩
  exact ⟨by decide +kernel, by decide +kernel, by decide +kernel, by decide +kernel, hframe⟩

end Session
end StructuredStore
