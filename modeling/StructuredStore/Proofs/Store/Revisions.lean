import StructuredStore.Proofs.Repair.Edits

/-!
# Operations make edits

Every operation on a key that sets no expiry makes edits of that key only, and
so does setting an expiry at the key itself.  The one exception is a push whose
metadata could not be written.

Main results:

- `Operation.endures_edits`: what becomes of a key in one operation.
-/

namespace StructuredStore

open Engine Store

variable {permit : Permit} {key : String} {table : Table}

/-! ## Structures that count their items -/

section Counted

/-- Setting a field amends the map and its own items. -/
theorem FieldMap.revises_set (field : String) (value : Value) :
    Amends permit key table (FieldMap.set key field value) :=
  .read (finds_readCount table key .map) fun _ hframe =>
    revises_putItem hframe (marker?_metadata .map) (by decide) (List.prefix_append _ _)
      (fun hseries => by cases hseries) value

/-- Removing a field amends the map and its own items. -/
theorem FieldMap.revises_remove (field : String) :
    Amends permit key table (FieldMap.remove key field) :=
  .read (finds_readCount table key .map) fun _ hframe =>
    revises_takeItem hframe (marker?_metadata .map) (by decide) (List.prefix_append _ _)

/-- Adding a member amends the set and its own items. -/
theorem MemberSet.revises_add (member : String) :
    Amends permit key table (MemberSet.add key member) :=
  .read (finds_readCount table key .set) fun _ hframe =>
    revises_putNewItem hframe (marker?_metadata .set) (by decide) (List.prefix_append _ _)
      (fun hseries => by cases hseries) .null

/-- Removing a member amends the set and its own items. -/
theorem MemberSet.revises_remove (member : String) :
    Amends permit key table (MemberSet.remove key member) :=
  .read (finds_readCount table key .set) fun _ hframe =>
    revises_takeItem hframe (marker?_metadata .set) (by decide) (List.prefix_append _ _)

/-- Every instant that has a selector has a point. -/
theorem Series.isPoint_of_instantSelector {instant : Instant} {selector : Bytes}
    (h : Key.instantSelector instant = .ok selector) :
    IsPoint key (Key.item key .series selector) := by
  unfold Key.instantSelector at h
  split at h
  · cases h
    exact ⟨_, rfl⟩
  · cases h

/-- Adding a point amends the series and its own items. -/
theorem Series.revises_add (instant : Instant) (value : Value) :
    Amends permit key table (Series.add key instant value) := by
  refine .read (finds_readCount table key .series) fun _ hframe => ?_
  cases hpoint : Key.instantSelector instant with
  | error fault =>
      rw [pointKey_error key hpoint]
      exact .throw _
  | ok selector =>
      dsimp only
      rw [pointKey_ok key hpoint, pure_bind]
      exact revises_putItem hframe (marker?_metadata .series) (by decide) (List.prefix_append _ _)
        (fun _ => isPoint_of_instantSelector hpoint) value

/-- Removing a point amends the series and its own items. -/
theorem Series.revises_remove (instant : Instant) :
    Amends permit key table (Series.remove key instant) := by
  refine .read (finds_readCount table key .series) fun _ hframe => ?_
  cases hpoint : Key.instantSelector instant with
  | error fault =>
      rw [pointKey_error key hpoint]
      exact .throw _
  | ok selector =>
      dsimp only
      rw [pointKey_ok key hpoint, pure_bind]
      exact revises_takeItem hframe (marker?_metadata .series) (by decide) (List.prefix_append _ _)

/-- Reading a filter's handle finds it in the metadata. -/
theorem Membership.finds_readHandle (table : Table) (key : String) :
    Finds table (Membership.readHandle key) fun found =>
      table.HasFrame (Key.ofText key) ⟨.bloom found.1, found.2⟩ := by
  apply Finds.bind (finds_readAs table _ .bloom)
  rintro ⟨value, expireAt⟩ ⟨hframe, hkind⟩
  cases value with
  | bloom handle => exact .pure hframe
  | _ => cases hkind

/-- Adding to a filter amends its metadata and its own bit vectors. -/
theorem Membership.revises_add (item : String) :
    Amends permit key table (Membership.add key item) := by
  refine .read (Membership.finds_readHandle table key) ?_
  rintro ⟨handle, expireAt⟩ hframe
  exact @revises_putItem permit key table _ expireAt .bloom
    (fun count => .bloom { handle with count }) handle.count hframe (fun _ => rfl) (by decide)
    (List.prefix_append _ _) (fun hseries => by cases hseries) _

/-- Clearing a filter amends its metadata and its own bit vectors. -/
theorem Membership.revises_clear : Amends permit key table (Membership.clear key) := by
  refine .read (Membership.finds_readHandle table key) ?_
  rintro ⟨handle, expireAt⟩ hframe
  exact @Store.revises_clear permit key table expireAt .bloom
    (fun count => .bloom { handle with count }) handle.count hframe (fun _ => rfl) (by decide) 0

end Counted

/-! ## Values -/

/-- Dropping an expiry amends the metadata only. -/
theorem Expiry.revises_clear : Amends permit key table (Expiry.clear key) :=
  .read (finds_readExisting table _) fun _ hframe =>
    .ite (fun _ => revises_restamp hframe none) fun _ => .pure trivial

/-- Stamping an expiry amends the metadata only. -/
theorem Expiry.revises_stamp (instant : Instant) :
    Amends permit key table (Expiry.stamp key instant) :=
  .read (finds_readExisting table _) fun _ hframe => revises_restamp hframe (some instant)

/-- What the stamp and the entry in the bucket keep is kept when an expiry is set. -/
theorem Expiry.maintains_setAt_of {inv : Table → Prop} {width : BucketWidth} {instant : Instant}
    (hstamp : Maintains inv (Expiry.stamp key instant))
    (henlist : Maintains inv (Expiry.enlist (width.bucket instant) key)) (now : Instant) :
    Maintains inv (Expiry.setAt width now key instant) :=
  .ite (.pure _) (.bind hstamp fun _ => .bind henlist fun _ => .pure _)

namespace Operation

/-- Whether an operation makes a new value of the one that lies at its key. -/
def updates : Operation → Bool
  | .increase _ _ | .increaseFloat _ _ | .increaseDecimal _ _ | .setBit _ _ _ => true
  | _ => false

/-- The value that an operation puts into a list. -/
def listed? : Operation → Option Value
  | .listPush _ _ value | .listSet _ _ value => some value
  | _ => none

/-- Whether what makes new values of old ones makes no structures, of none, and
only values that are read back. -/
def MakesScalars {α : Type} (next : Option Value → Except StoreError (Value × α)) : Prop :=
  ∀ old value answer, next old = .ok (value, answer) →
    value.kind.isStructure = false ∧ value.Storable ∧
      ∀ v, old = some v → v.kind.isStructure = false

/-- An operation that updates a value refuses to, or makes a scalar of the old
one. -/
theorem perform_of_updates (env : Environment) {op : Operation} (hkey : op.key? = some key)
    (hupdates : op.updates = true) :
    (∃ e, op.perform env = throw e) ∨
      ∃ (α : Type) (next : Option Value → Except StoreError (Value × α)) (reply : α → Reply),
        MakesScalars next ∧ op.perform env = reply <$> update key next := by
  cases op <;> cases hkey <;> try cases hupdates
  case increase amount =>
    refine Or.inr ⟨_, _, _, fun old value answer hanswer => ?_, rfl⟩
    split at hanswer
    · cases hanswer
      exact ⟨rfl, trivial, fun _ h => by cases h⟩
    · rename_i i
      cases hsum : checkedAdd i amount with
      | error e =>
          rw [hsum] at hanswer
          cases hanswer
      | ok sum =>
          rw [hsum] at hanswer
          cases hanswer
          exact ⟨rfl, trivial, fun _ h => by cases h; rfl⟩
    · cases hanswer
  case increaseFloat amount =>
    refine Or.inr ⟨_, _, _, fun old value answer hanswer => ?_, rfl⟩
    split at hanswer
    · cases hanswer
      exact ⟨rfl, trivial, fun _ h => by cases h⟩
    · dsimp only at hanswer
      split at hanswer <;> cases hanswer
      exact ⟨rfl, trivial, fun _ h => by cases h; rfl⟩
    · cases hanswer
  case increaseDecimal amount =>
    refine Or.inr ⟨_, _, _, fun old value answer hanswer => ?_, rfl⟩
    split at hanswer
    · cases hanswer
      exact ⟨rfl, trivial, fun _ h => by cases h⟩
    · split at hanswer <;> cases hanswer
      exact ⟨rfl, trivial, fun _ h => by cases h; rfl⟩
    · cases hanswer
  case setBit offset on =>
    rw [perform, Bitmap.setBit]
    split
    · exact Or.inl ⟨.outOfRange, rfl⟩
    · refine Or.inr ⟨_, _, .flag, fun old value answer hanswer => ?_, rfl⟩
      split at hanswer <;> cases hanswer
      · exact ⟨rfl, trivial, fun _ h => by cases h⟩
      · exact ⟨rfl, trivial, fun _ h => by cases h; rfl⟩

/-- An operation that updates a value writes no structure and over none. -/
theorem amends_of_updates (hpermit : permit.replaces) (env : Environment) {op : Operation}
    (hkey : op.key? = some key) (hupdates : op.updates = true) :
    Amends permit key table (op.perform env) := by
  rcases perform_of_updates env hkey hupdates with ⟨e, heq⟩ | ⟨α, next, reply, hnext, heq⟩
  · rw [heq]
    exact .throw e
  · rw [heq]
    refine .map _ (revises_update hpermit fun old value answer hanswer => ?_)
    obtain ⟨hvalue, _, hold⟩ := hnext old value answer hanswer
    exact ⟨hvalue, hold⟩

/-- What is kept when an expiry is set is kept by the operations that set one. -/
theorem maintains_scheduling_of {inv : Table → Prop} (env : Environment) {op : Operation}
    (hkey : op.key? = some key) (hschedules : op.schedules = true)
    (hsetAt : ∀ instant, Maintains inv (Expiry.setAt env.width env.now key instant)) :
    Maintains inv (op.perform env) := by
  cases op <;> cases hkey <;> cases hschedules
  case expireAt instant => exact .map _ (hsetAt instant)
  case expireIn span =>
    refine .map _ ?_
    unfold Expiry.setIn
    split
    · exact .of_readOnly (.throw _)
    · exact hsetAt _

/-! ## Operations -/

/-- Whether what an operation writes is permitted at a key. -/
structure Allowed (op : Operation) (permit : Permit) (key : String) (table : Table) : Prop where
  replaces : Key.isReserved key = false ∨ op.updates = true → permit.replaces
  item : ∀ value, op.listed? = some value →
    ∀ bytes, Frame.encode ⟨value, none⟩ = .ok bytes → permit.item bytes
  readable : op = .repair key → permit.readable →
    table.countUnder (Key.itemStem key .list) < 9223372036854775808

theorem revises_silent {action : StoreM Unit} {done : Table → Prop}
    (h : Revises permit key table action fun _ after => done after) :
    Revises permit key table (silent action) fun _ after => done after :=
  .bind h fun _ _ hdone => .pure hdone

theorem amends_silent {action : StoreM Unit} (h : Amends permit key table action) :
    Amends permit key table (silent action) :=
  @revises_silent permit key table action (fun _ => True) h

/-- Whether an operation removes a value with its items: any value, or one of
the operation's kind. -/
def deletes : Operation → Bool
  | .delete _ | .listDelete _ | .mapDelete _ | .setDelete _ | .bloomDelete _
  | .seriesDelete _ => true
  | _ => false

/-- What succeeds in deleting found a value, and removed what it covers. -/
theorem revises_deletes (env : Environment) {op : Operation} (hkey : op.key? = some key)
    (hdeletes : op.deletes = true) :
    Revises permit key table (op.perform env) fun _ after => Deleted key table after := by
  cases op <;> cases hkey <;> try cases hdeletes
  case delete => exact revises_silent revises_delete
  case listDelete => exact revises_silent (revises_deleteAs .list)
  case mapDelete => exact revises_silent (revises_deleteAs .map)
  case setDelete => exact revises_silent (revises_deleteAs .set)
  case bloomDelete => exact revises_silent (revises_deleteAs .bloom)
  case seriesDelete => exact revises_silent (revises_deleteAs .series)

/-- Every operation but a push makes edits of its key. -/
theorem amends_perform (env : Environment) {op : Operation} (hkey : op.key? = some key)
    (hschedules : op.schedules = false) (hregular : Deque.Regular table key)
    (hallowed : op.Allowed permit key table) (hpush : ∀ side value, op ≠ .listPush key side value) :
    Amends permit key table (op.perform env) := by
  have hreplaces : Key.isReserved key = false → permit.replaces :=
    fun hunreserved => hallowed.replaces (Or.inl hunreserved)
  have hnot : ∀ {value : Value}, value.marker? ≠ some .list →
      ∀ handle, value = .list handle → handle = .empty := by
    rintro _ hvalue handle rfl
    exact absurd rfl hvalue
  refine (Decidable.em (op.reads = true)).elim
    (fun hreads => .of_readOnly (readOnly_perform env hreads)) fun hreads => ?_
  refine (Decidable.em (op.updates = true)).elim
    (fun hupdates => amends_of_updates (hallowed.replaces (Or.inr hupdates)) env hkey hupdates)
    fun hupdates => ?_
  cases op <;> cases hkey <;> cases hschedules <;> try exact absurd rfl hreads
  all_goals try exact absurd rfl hupdates
  case set value => exact amends_silent (revises_set hreplaces value)
  case delete => exact amends_silent revises_delete.amends
  case clearExpiry => exact amends_silent Expiry.revises_clear
  case repair => exact .map _ (Repair.revises_repair (hallowed.readable rfl))
  case listCreate =>
    refine amends_silent (revises_create hreplaces ?_)
    rintro _ ⟨⟩
    rfl
  case listPush side value => exact absurd rfl (hpush side value)
  case listPop side => exact .map _ (Deque.revises_pop hregular side)
  case listSet position value =>
    exact amends_silent (Deque.revises_set hregular position (hallowed.item value rfl))
  case listTrim start stop => exact amends_silent (Deque.revises_trim hregular start stop)
  case listDelete => exact amends_silent (revises_deleteAs .list).amends
  case mapCreate => exact amends_silent (revises_create hreplaces (hnot (by decide)))
  case mapSet field value => exact .map _ (FieldMap.revises_set field value)
  case mapRemove field => exact .map _ (FieldMap.revises_remove field)
  case mapDelete => exact amends_silent (revises_deleteAs .map).amends
  case setCreate => exact amends_silent (revises_create hreplaces (hnot (by decide)))
  case setAdd member => exact .map _ (MemberSet.revises_add member)
  case setRemove member => exact .map _ (MemberSet.revises_remove member)
  case setDelete => exact amends_silent (revises_deleteAs .set).amends
  case bloomCreate slots salt =>
    refine amends_silent (.guard fun _ => revises_create hreplaces (hnot ?_))
    simp [Value.marker?]
  case bloomAdd item => exact .map _ (Membership.revises_add item)
  case bloomClear => exact amends_silent Membership.revises_clear
  case bloomDelete => exact amends_silent (revises_deleteAs .bloom).amends
  case seriesCreate => exact amends_silent (revises_create hreplaces (hnot (by decide)))
  case seriesAdd instant value => exact .map _ (Series.revises_add instant value)
  case seriesRemove instant => exact .map _ (Series.revises_remove instant)
  case seriesDelete => exact amends_silent (revises_deleteAs .series).amends
  case setEncrypted value algorithm secret =>
    refine amends_silent ?_
    refine .read (.of_readOnly (Secret.confined_cipher env.providers algorithm)) fun _ _ => ?_
    refine .read (finds_lift table _) fun _ _ => ?_
    exact .read (.of_readOnly (Secret.confined_guarded _ _)) fun ⟨_, _⟩ _ =>
      revises_set hreplaces _
  case setPassword password algorithm cost =>
    refine amends_silent ?_
    refine .read (.of_readOnly (Secret.confined_hasher env.providers algorithm)) fun _ _ => ?_
    exact .read (.of_readOnly (Secret.confined_guarded _ _)) fun ⟨_, _⟩ _ =>
      revises_set hreplaces _

/-- An operation makes edits of its key, or is a push that leaves its item
beside the list. -/
theorem endures_edits (env : Environment) {op : Operation} (hkey : op.key? = some key)
    (hschedules : op.schedules = false) (hregular : Deque.Regular table key)
    (hallowed : op.Allowed permit key table) :
    Endures table (op.perform env) fun outcome after => Edits permit key table after ∨
      (∃ side value, op = .listPush key side value) ∧ (∃ e, outcome = .error e) ∧
        Torn permit key table after := by
  by_cases hpush : ∃ side value, op = .listPush key side value
  · obtain ⟨side, value, rfl⟩ := hpush
    refine .map _ ((Deque.endures_push hregular side (hallowed.item value rfl)).conseq ?_)
    rintro outcome after (hedits | ⟨⟨e, rfl⟩, htorn⟩)
    · exact Or.inl hedits
    · exact Or.inr ⟨⟨side, value, rfl⟩, ⟨e, rfl⟩, htorn⟩
  · refine (amends_perform env hkey hschedules hregular hallowed fun side value heq =>
      hpush ⟨side, value, heq⟩).conseq fun _ _ hafter => Or.inl hafter.1

end Operation

/-! ## Runs -/

namespace Session

/-- What holds of an operation whichever calls fail holds of it in a session. -/
theorem of_endures {session : Session} {op : Operation}
    {post : Except StoreError Reply → Table → Prop}
    (h : Endures session.engine.table (op.perform session.environment) post) :
    post (session.perform op).1 (session.perform op).2.engine.table :=
  h.ends session.engine.faults

/-- What each operation of a run keeps, where it comes, holds at its end. -/
theorem run_keeps {inv : Table → Prop} (steps : List Step) (session : Session)
    (h : inv session.engine.table)
    (hstep : ∀ front op back, steps = front ++ .operation op :: back →
      inv (session.run front).2.engine.table →
        inv ((session.run front).2.perform op).2.engine.table) :
    inv (session.run steps).2.engine.table := by
  induction steps generalizing session with
  | nil => exact h
  | cons step steps ih =>
      have hrest := ih (session.step step).2 ?_ fun front op back heq =>
        hstep (step :: front) op back (congrArg (step :: ·) heq)
      · exact hrest
      · cases step with
        | operation op => exact hstep [] op steps rfl h
        | clockSet instant => exact h
        | clockAdvance span => exact h

end Session
end StructuredStore
