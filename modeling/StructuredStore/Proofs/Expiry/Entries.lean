import StructuredStore.Proofs.Expiry.Exact
import StructuredStore.Proofs.Store.Endurance

/-!
# Entries, whichever calls fail

The entry of a key in a bucket is an item of the list there.  Writing an expiry
into a frame and enlisting a name lose no entry, wherever they are broken off,
and give no other key an expiry.

Main results:

- `Table.HasEntry`, `Filed`: the entry of a key, and of every key that expires.
- `endures_stamp`: an expiry is written, or nothing is.
- `Keeps`, `Files`, `endures_enlist`: what becomes of a bucket when a name is enlisted.
-/

namespace StructuredStore

open Engine Store

/-! ## Entries -/

/-- Whether the list at a bucket has the name of a key among its items, whatever
the expiries of the list and the item. -/
def Table.HasEntry (table : Table) (bucket key : String) : Prop :=
  ∃ handle expireAt, table.HasFrame (Key.ofText bucket) ⟨.list handle, expireAt⟩ ∧
    ∃ index : Int64, handle.head.toInt ≤ index.toInt ∧ index.toInt ≤ handle.tail.toInt ∧
      ∃ expireAt', table.HasFrame (Key.listItem bucket index) ⟨.text key, expireAt'⟩

/-- Whether every key that expires has an entry in the bucket of its expiry. -/
def Filed (width : BucketWidth) (table : Table) : Prop :=
  ∀ key instant, table.expiryOf key = some instant →
    table.HasEntry (width.bucket instant) key

namespace Table

variable {table after : Table} {bucket key : String}

/-- Only what belongs to the bucket matters. -/
theorem HasEntry.congr (h : table.HasEntry bucket key)
    (heq : ∀ physical, Key.Owns bucket physical → after.get? physical = table.get? physical) :
    after.HasEntry bucket key := by
  obtain ⟨handle, expireAt, hframe, index, hlow, hhigh, expireAt', hitem⟩ := h
  exact ⟨handle, expireAt, hframe.congr (heq _ (.self bucket)), index, hlow, hhigh, expireAt',
    hitem.congr (heq _ (.listItem bucket index))⟩

/-- An entry stays as long as every frame keeps its value. -/
theorem HasEntry.of_values (h : table.HasEntry bucket key)
    (hvalues : ∀ physical value expireAt, table.HasFrame physical ⟨value, expireAt⟩ →
      ∃ expireAt', after.HasFrame physical ⟨value, expireAt'⟩) : after.HasEntry bucket key := by
  obtain ⟨handle, expireAt, hframe, index, hlow, hhigh, expireAt', hitem⟩ := h
  obtain ⟨expireAt, hframe⟩ := hvalues _ _ _ hframe
  obtain ⟨expireAt', hitem⟩ := hvalues _ _ _ hitem
  exact ⟨handle, expireAt, hframe, index, hlow, hhigh, expireAt', hitem⟩

/-- A frame written anew with another expiry keeps its value, as all others do. -/
theorem HasFrame.restamp {physical other : Bytes} {frame : Frame} {value : Value}
    {expireAt expireAt' : Option Instant} {bytes : Bytes} (h : table.HasFrame physical frame)
    (hencode : Frame.encode ⟨frame.value, expireAt⟩ = .ok bytes)
    (hother : table.HasFrame other ⟨value, expireAt'⟩) :
    ∃ expireAt', (table.insert physical bytes).HasFrame other ⟨value, expireAt'⟩ := by
  by_cases hsame : physical = other
  · subst hsame
    cases h.unique hother
    obtain ⟨old, _, hdecode⟩ := h
    have hstorable := Frame.storable_of_decode hdecode
    exact ⟨_, bytes, get?_insert_self table physical bytes,
      Frame.decode_encode hencode hstorable⟩
  · exact ⟨expireAt', hother.congr (get?_insert_of_ne table bytes hsame)⟩

/-- The expiry in a row that was written. -/
theorem expiryOf_insert (table : Table) (key : String) {value : Value}
    {expireAt : Option Instant} {bytes : Bytes}
    (hencode : Frame.encode ⟨value, expireAt⟩ = .ok bytes) (physical : Bytes) :
    (table.insert physical bytes).expiryOf key =
      if physical = Key.ofText key then Frame.asStored expireAt else table.expiryOf key := by
  rw [expiryOf, get?_insert]
  split
  · rw [Option.bind_some, Frame.storedExpiry_encode hencode]
  · rfl

end Table

/-- A key that expires has a row with the expiry. -/
theorem Table.mem_rows_of_expiryOf {table : Table} {key : String} {instant : Instant}
    (h : table.expiryOf key = some instant) :
    ∃ row ∈ table.rows, row.1 = Key.ofText key ∧ Frame.storedExpiry row.2 = some instant := by
  obtain ⟨contents, hget, hinstant⟩ := Option.bind_eq_some_iff.mp h
  exact ⟨(Key.ofText key, contents), (table.mem_rows_iff _ _).mpr hget, rfl, hinstant⟩

/-- Only rows that hold an expiry need an entry. -/
theorem filed_of_rows {width : BucketWidth} {table : Table}
    (h : ∀ row ∈ table.rows, ∀ instant, Frame.storedExpiry row.2 = some instant →
      ∃ key, Key.ofText key = row.1 ∧ table.HasEntry (width.bucket instant) key) :
    Filed width table := by
  intro key instant hexpiry
  obtain ⟨row, hrow, hkey, hinstant⟩ := Table.mem_rows_of_expiryOf hexpiry
  obtain ⟨other, hother, hentry⟩ := h row hrow instant hinstant
  rwa [← Utf8.encode_injective (hother.trans hkey)]

namespace Expiry

/-! ## Writing an expiry -/

/-- An expiry is written into the frame of a key, or nothing is written. -/
theorem endures_stamp (table : Table) (key : String) (instant : Instant) :
    Endures table (stamp key instant) fun _ after => after = table ∨
      ∃ frame bytes, table.HasFrame (Key.ofText key) frame ∧
        Frame.encode ⟨frame.value, some instant⟩ = .ok bytes ∧
        after = table.insert (Key.ofText key) bytes := by
  apply (finds_readExisting table _).before fun _ => Or.inl rfl
  intro frame hframe
  apply endures_write
  · exact fun _ => Or.inl rfl
  · exact fun bytes hencode _ => Or.inr ⟨frame, bytes, hframe, hencode, rfl⟩

/-! ## Enlisting -/

/-- Whether a change of a bucket loses none of its entries and gives no key an
expiry. -/
structure Keeps (bucket : String) (table after : Table) : Prop where
  agree : table.AgreeOff (Key.Owns bucket) after
  entry : ∀ key, table.HasEntry bucket key → after.HasEntry bucket key
  expiry : ∀ key, after.expiryOf key = table.expiryOf key ∨ after.expiryOf key = none

/-- Whether a new item of the list at a bucket, if there is one, would lie
behind its head. -/
def Orderly (table : Table) (bucket : String) : Prop :=
  ∀ handle expireAt, table.HasFrame (Key.ofText bucket) ⟨.list handle, expireAt⟩ →
    handle.head.toInt ≤ handle.tail.toInt + 1

variable {table between after : Table} {bucket name : String}

namespace Keeps

theorem refl (bucket : String) (table : Table) : Keeps bucket table table :=
  ⟨.refl _ table, fun _ h => h, fun _ => Or.inl rfl⟩

theorem trans (hfirst : Keeps bucket table between) (hsecond : Keeps bucket between after) :
    Keeps bucket table after := by
  refine ⟨hfirst.agree.trans hsecond.agree, fun key h => hsecond.entry key (hfirst.entry key h), ?_⟩
  intro key
  rcases hsecond.expiry key with hsame | hnone
  · rw [hsame]
    exact hfirst.expiry key
  · exact Or.inr hnone

/-- An empty list where there was none. -/
theorem create {contents : Bytes} (h : table.get? (Key.ofText bucket) = none)
    (hencode : Frame.encode ⟨.list .empty, none⟩ = .ok contents) :
    Keeps bucket table (table.insert (Key.ofText bucket) contents) := by
  refine ⟨.insert (.self bucket) table contents, fun key hentry => ?_, fun key => ?_⟩
  · obtain ⟨handle, expireAt, hframe, _⟩ := hentry
    exact absurd h hframe.get?_ne_none
  · rw [table.expiryOf_insert key hencode]
    split
    · exact Or.inr rfl
    · exact Or.inl rfl

variable {handle : ListHandle} {expireAt : Option Instant} {item contents : Bytes}

/-- A new item lies behind those that are there. -/
theorem append (h : table.HasFrame (Key.ofText bucket) ⟨.list handle, expireAt⟩)
    (hroom : ¬ Deque.Full handle .right) (hencode : Frame.encode ⟨.text name, none⟩ = .ok item) :
    Keeps bucket table (table.insert (Key.listItem bucket (handle.tail + 1)) item) := by
  have hlast := toInt_add_one (Deque.lt_of_ne_maxValue (not_or.mp hroom).2)
  refine ⟨.insert (.listItem bucket _) table item, fun key hentry => ?_, fun key => ?_⟩
  · obtain ⟨other, expireAt', hframe, index, hlow, hhigh, expireAt'', hitem⟩ := hentry
    cases h.unique hframe
    have hne : handle.tail + 1 ≠ index := by
      rintro rfl
      omega
    refine ⟨handle, expireAt, h.congr ?_, index, hlow, hhigh, expireAt'', hitem.congr ?_⟩
    · exact Table.get?_insert_of_ne table item (Deque.listItem_ne_ofText bucket _)
    · exact Table.get?_insert_of_ne table item (by simpa using hne)
  · rw [table.expiryOf_insert key hencode]
    split
    · exact Or.inr rfl
    · exact Or.inl rfl

/-- The metadata of the longer list. -/
theorem grow (h : table.HasFrame (Key.ofText bucket) ⟨.list handle, expireAt⟩)
    (hroom : ¬ Deque.Full handle .right)
    (hencode : Frame.encode ⟨.list (Deque.grown handle .right), expireAt⟩ = .ok contents) :
    Keeps bucket table (table.insert (Key.ofText bucket) contents) := by
  have hstorable := Deque.storable_grown h.storable hroom
  have hlast := toInt_add_one (Deque.lt_of_ne_maxValue (not_or.mp hroom).2)
  refine ⟨.insert (.self bucket) table contents, fun key hentry => ?_, fun key => ?_⟩
  · obtain ⟨other, expireAt', hframe, index, hlow, hhigh, expireAt'', hitem⟩ := hentry
    cases h.unique hframe
    refine ⟨_, _, .insert table _ hencode hstorable h.asStored_expireAt, index, hlow, ?_,
      expireAt'', hitem.congr ?_⟩
    · simp only [Deque.grown]
      omega
    · exact Table.get?_insert_of_ne table contents (Deque.listItem_ne_ofText bucket index).symm
  · rw [table.expiryOf_insert key hencode]
    split
    · rename_i heq
      rw [heq] at h
      rw [h.expiryOf_eq]
      exact Or.inl h.asStored_expireAt
    · exact Or.inl rfl

end Keeps

/-! ## Lists in order -/

namespace Orderly

theorem congr (h : Orderly table bucket)
    (heq : after.get? (Key.ofText bucket) = table.get? (Key.ofText bucket)) :
    Orderly after bucket :=
  fun handle expireAt hframe => h handle expireAt (hframe.congr heq.symm)

theorem of_none (h : table.get? (Key.ofText bucket) = none) : Orderly table bucket :=
  fun _ _ hframe => absurd h hframe.get?_ne_none

/-- Metadata that was written says whether its list is in order. -/
theorem insert {handle : ListHandle} {expireAt : Option Instant} {contents : Bytes}
    (hencode : Frame.encode ⟨.list handle, expireAt⟩ = .ok contents)
    (hstorable : (Value.list handle).Storable)
    (horder : handle.head.toInt ≤ handle.tail.toInt + 1) :
    Orderly (table.insert (Key.ofText bucket) contents) bucket := by
  intro other expireAt' ⟨bytes, hget, hdecode⟩
  rw [Table.get?_insert_self] at hget
  cases hget
  rw [Frame.decode_encode hencode hstorable] at hdecode
  cases hdecode
  exact horder

/-- A frame written anew with another expiry keeps its value, so its list stays
in order. -/
theorem restamp {physical contents : Bytes} {value : Value}
    {expireAt expireAt' : Option Instant} (h : Orderly table bucket)
    (hframe : table.HasFrame physical ⟨value, expireAt⟩)
    (hencode : Frame.encode ⟨value, expireAt'⟩ = .ok contents) :
    Orderly (table.insert physical contents) bucket := by
  intro handle expireAt'' hafter
  by_cases hsame : physical = Key.ofText bucket
  · subst hsame
    obtain ⟨old, hget, hdecode⟩ := hframe
    obtain ⟨bytes, hget', hdecode'⟩ := hafter
    rw [Table.get?_insert_self] at hget'
    cases hget'
    rw [Frame.decode_encode hencode (Frame.storable_of_decode hdecode)] at hdecode'
    cases hdecode'
    exact h handle expireAt ⟨old, hget, hdecode⟩
  · exact h handle expireAt'' (hafter.congr (table.get?_insert_of_ne contents hsame).symm)

end Orderly

/-- The new item of a list in order is the entry of its name once the metadata
counts it. -/
theorem hasEntry_grown {handle : ListHandle} {expireAt expireAt' : Option Instant}
    {contents : Bytes} (h : table.HasFrame (Key.ofText bucket) ⟨.list handle, expireAt⟩)
    (hroom : ¬ Deque.Full handle .right)
    (hitem : table.HasFrame (Key.listItem bucket (handle.tail + 1)) ⟨.text name, expireAt'⟩)
    (hencode : Frame.encode ⟨.list (Deque.grown handle .right), expireAt⟩ = .ok contents)
    (horder : handle.head.toInt ≤ handle.tail.toInt + 1) :
    (table.insert (Key.ofText bucket) contents).HasEntry bucket name := by
  have hlast := toInt_add_one (Deque.lt_of_ne_maxValue (not_or.mp hroom).2)
  refine ⟨_, _, .insert table _ hencode (Deque.storable_grown h.storable hroom) h.asStored_expireAt,
    handle.tail + 1, ?_, le_rfl, expireAt', hitem.congr ?_⟩
  · simp only [Deque.grown]
    omega
  · exact Table.get?_insert_of_ne table contents (Deque.listItem_ne_ofText bucket _).symm

/-- Whether an attempt that succeeds leaves the name listed in a bucket whose
list was in order. -/
def Files {α : Type} (bucket name : String) (table : Table) (outcome : Except StoreError α)
    (after : Table) : Prop :=
  Orderly table bucket → ∀ a, outcome = .ok a → after.HasEntry bucket name

/-- What an attempt to enlist a name leads to: the bucket keeps what it lists,
and a list in order has the name if the attempt succeeds. -/
structure Enlists {α : Type} (bucket name : String) (table : Table)
    (outcome : Except StoreError α) (after : Table) : Prop where
  keeps : Keeps bucket table after
  orderly : Orderly table bucket → Orderly after bucket
  listed : Files bucket name table outcome after

namespace Enlists

variable {α : Type} {outcome : Except StoreError α}

/-- An attempt that fails enlists nothing. -/
theorem of_error {e : StoreError} (hkeeps : Keeps bucket table after)
    (horderly : Orderly table bucket → Orderly after bucket) :
    Enlists bucket name table (.error e : Except StoreError α) after :=
  ⟨hkeeps, horderly, fun _ _ heq => by cases heq⟩

/-- A bucket may change in front of the attempt. -/
theorem of_keeps (hkeeps : Keeps bucket table between)
    (horderly : Orderly table bucket → Orderly between bucket)
    (h : Enlists bucket name between outcome after) : Enlists bucket name table outcome after :=
  ⟨hkeeps.trans h.keeps, fun hold => h.orderly (horderly hold),
    fun hold => h.listed (horderly hold)⟩

end Enlists

/-- A push at the end of a bucket's list. -/
theorem endures_push (table : Table) (bucket name : String) :
    Endures table (Deque.push bucket (.text name) .right) fun outcome after =>
      Enlists bucket name table outcome after := by
  have hsame : ∀ (table : Table) (e : StoreError),
      Enlists bucket name table (.error e : Except StoreError Int64) table :=
    fun table e => .of_error (.refl bucket table) id
  apply (Deque.finds_readHandle table bucket).before (hsame table)
  intro ⟨handle, expireAt⟩ hframe
  apply (Deque.finds_grow table handle .right).before (hsame table)
  intro _ ⟨hroom, hgrown⟩
  cases hgrown
  -- The item alone changes neither the metadata nor another item.
  have hmetadata : ∀ item, (table.insert (Key.listItem bucket (handle.tail + 1)) item).get?
      (Key.ofText bucket) = table.get? (Key.ofText bucket) := fun item =>
    Table.get?_insert_of_ne table item (Deque.listItem_ne_ofText bucket _)
  apply endures_write_bind (hsame table)
  · intro item hitem e
    exact .of_error (.append hframe hroom hitem) fun h => h.congr (hmetadata item)
  intro item hitem
  have hframe' := hframe.congr (hmetadata item)
  have hnew := Table.HasFrame.insert table (Key.listItem bucket (handle.tail + 1)) hitem
    trivial rfl
  have hlast := toInt_add_one (Deque.lt_of_ne_maxValue (not_or.mp hroom).2)
  have hwritten : ∀ contents,
      Frame.encode ⟨.list (Deque.grown handle .right), expireAt⟩ = .ok contents →
      ∀ outcome : Except StoreError Int64, Enlists bucket name
        (table.insert (Key.listItem bucket (handle.tail + 1)) item) outcome
        ((table.insert (Key.listItem bucket (handle.tail + 1)) item).insert (Key.ofText bucket)
          contents) := by
    intro contents hcontents outcome
    refine ⟨.grow hframe' hroom hcontents, fun horder => ?_, fun horder _ _ => ?_⟩
    · apply Orderly.insert hcontents (Deque.storable_grown hframe'.storable hroom)
      have hhead := horder handle expireAt hframe'
      simp only [Deque.grown]
      omega
    · exact hasEntry_grown hframe' hroom hnew hcontents (horder handle expireAt hframe')
  have hcounted : ∀ (outcome : Except StoreError Int64) (after : Table),
      Enlists bucket name (table.insert (Key.listItem bucket (handle.tail + 1)) item) outcome after →
      Enlists bucket name table outcome after := fun _ _ =>
    .of_keeps (.append hframe hroom hitem) fun h => h.congr (hmetadata item)
  apply endures_write_bind fun e => hcounted _ _ (hsame _ e)
  · exact fun contents hcontents e => hcounted _ _ (hwritten contents hcontents (.error e))
  · exact fun contents hcontents => .pure (hcounted _ _ (hwritten contents hcontents _))

/-- A push onto a bucket's list that is created if the bucket is absent. -/
theorem endures_pushRightCreating (table : Table) (bucket name : String) :
    Endures table (Deque.pushRightCreating bucket (.text name)) fun outcome after =>
      Enlists bucket name table outcome after := by
  apply (finds_read table (Key.ofText bucket)).before
  · exact fun e => .of_error (.refl bucket table) id
  intro found hfound
  apply Endures.ite
  · intro hnone
    rw [Option.isNone_iff_eq_none.mp hnone] at hfound
    have hcreated : ∀ contents, Frame.encode ⟨.list .empty, none⟩ = .ok contents →
        Orderly (table.insert (Key.ofText bucket) contents) bucket := fun contents hcontents =>
      .insert hcontents (Or.inl rfl) (by decide)
    apply endures_write_bind
    · exact fun e => .of_error (.refl bucket table) id
    · intro contents hcontents e
      exact .of_error (.create hfound hcontents) fun _ => hcreated contents hcontents
    · intro contents hcontents
      apply (endures_push _ bucket name).conseq
      intro outcome after hafter
      exact .of_keeps (.create hfound hcontents) (fun _ => hcreated contents hcontents) hafter
  · exact fun _ => endures_push table bucket name

/-- Enlisting a name loses no entry, wherever it is broken off. -/
theorem endures_enlist (table : Table) (bucket name : String) :
    Endures table (enlist bucket name) fun outcome after =>
      Enlists bucket name table outcome after := by
  apply Endures.bind (endures_pushRightCreating table bucket name)
  · exact fun e after h => .of_error h.keeps h.orderly
  · exact fun length after h => .pure ⟨h.keeps, h.orderly, fun horder _ _ => h.listed horder _ rfl⟩

end Expiry
end StructuredStore
