import StructuredStore.Proofs.Expiry.Losses
import StructuredStore.Proofs.Store.Preservation
import StructuredStore.Proofs.Store.Revisions

/-!
# The namespace of the buckets

A key that is read as that of a bucket holds a list of names.  Values cannot be
set or created there, and what writes names creates nothing but lists.  Only two
kinds of operations do not ask where they write: those that make a new value of
an old one, and those that put a value into a list that is there.  Where neither
of the two is let into a bucket, everything that lies in one fits, whichever
calls fail.

Main definitions:

- `OnlyNames`: whether all buckets hold lists of names.

Main results:

- `OnlyNames.edit`, `OnlyNames.torn`: what a key that lies in a bucket may do.
- `KeptBySweep.sweep`: a sweep keeps what its parts keep.
- `OnlyNames.keptBySweeps`, `OnlyNames.endures_perform`: sweeps and all other
  operations.
- `OnlyNames.ends_takeAll`: such a bucket can be drained.
- `Session.run_buckets_names`: what lies in the buckets after any run.
- `Session.run_buckets_unreadable`: the two kinds of operations let into buckets.
-/

namespace StructuredStore

open Engine Store

namespace Expiry

/-! ## Parts of a sweep -/

/-- Noting a failure keeps what the computation keeps. -/
theorem maintains_attempt {α : Type} {inv : Table → Prop} {action : StoreM α}
    (haction : Maintains inv action) : Maintains inv (attempt action) := by
  refine fun table h => ⟨fun faults => ?_⟩
  have hkept := (haction table h).ends faults
  obtain ⟨cause, left, hrun, hbroken⟩ | hnoted := run_attempt action ⟨table, faults⟩
  · rw [hrun] at hkept
    rwa [hbroken]
  · rwa [hnoted]

/-- Settling a name only removes rows. -/
theorem thinning_settle (width : BucketWidth) (now : Instant) (bucket name : String) :
    Thinning (settle width now bucket name) := by
  refine .bind (.of_readOnly (confined_read _)) fun found => ?_
  cases found with
  | none => exact .of_readOnly (.pure _)
  | some frame =>
      obtain ⟨value, expireAt⟩ := frame
      cases expireAt with
      | none => exact .of_readOnly (.pure _)
      | some instant =>
          intro table
          refine .ite (fun _ => ?_) fun _ => ?_
          · exact .bind (thinning_purge name value table) (fun _ _ h => h) fun _ _ h => .pure h
          · exact .ite (fun _ => .pure (.refl table)) fun _ => .pure (.refl table)

/-- Whether the parts that a sweep is made of keep what holds of the table. -/
structure KeptBySweep (inv : Table → Prop) (width : BucketWidth) (now : Instant) : Prop where
  takes : ∀ {bucket}, Key.IsBucket bucket → Maintains inv (Deque.takeAll bucket)
  settles : ∀ {bucket} name, Key.IsBucket bucket → Maintains inv (settle width now bucket name)
  enlists : ∀ {bucket} name, Key.IsBucket bucket → Maintains inv (enlist bucket name)

namespace KeptBySweep

variable {inv : Table → Prop} {width : BucketWidth} {now : Instant} {bucket : String}

/-- An invariant every sweep keeps is kept while one entry is settled. -/
theorem settleEntry (h : KeptBySweep inv width now) (hbucket : Key.IsBucket bucket)
    (entry : Value) : Maintains inv (settleEntry width now bucket entry) := by
  cases entry with
  | text name =>
      refine .bind (maintains_attempt (h.settles name hbucket)) fun result => ?_
      match result with
      | .error _ => exact .pure _
      | .ok .deleted => exact .pure _
      | .ok .stale => exact .pure _
      | .ok .notDue =>
          exact .bind (maintains_attempt (h.enlists name hbucket)) fun _ => .pure _
  | _ => exact .pure _

/-- By induction on the entries read, it is kept while a bucket's entries are settled.
-/
theorem settleEntries (h : KeptBySweep inv width now) (hbucket : Key.IsBucket bucket)
    (entries : List Value) : Maintains inv (settleEntries width now bucket entries) := by
  induction entries with
  | nil => exact .pure _
  | cons entry entries ih =>
      exact .bind (h.settleEntry hbucket entry) fun _ => .bind ih fun _ => .pure _

/-- It is kept while one bucket is swept. -/
theorem sweepBucket (h : KeptBySweep inv width now) (hbucket : Key.IsBucket bucket) :
    Maintains inv (sweepBucket width now bucket) :=
  .bind (h.takes hbucket) fun entries => .bind (h.settleEntries hbucket entries) fun _ => .pure _

/-- It is kept while any number of buckets are swept. -/
theorem sweepBuckets (h : KeptBySweep inv width now) {buckets : List String}
    (hbuckets : ∀ bucket ∈ buckets, Key.IsBucket bucket) :
    Maintains inv (sweepBuckets width now buckets) := by
  induction buckets with
  | nil => exact .pure _
  | cons bucket buckets ih =>
      obtain ⟨hbucket, hrest⟩ := List.forall_mem_cons.mp hbuckets
      refine .bind (maintains_attempt (h.sweepBucket hbucket)) fun first =>
        .bind (ih hrest) fun rest => ?_
      cases first <;> exact .pure _

/-- A sweep keeps what its parts keep. -/
theorem sweep (h : KeptBySweep inv width now) : Maintains inv (sweep width now) := by
  intro table hinv
  refine (Finds.visitUnder table _ _ _).before (fun _ => hinv) fun due hdue => ?_
  refine h.sweepBuckets (fun bucket hmem => ?_) table hinv
  rw [List.mem_reverse, hdue] at hmem
  apply isBucket_of_visitRows _ (by simp) bucket hmem
  exact fun row hrow => ((Table.mem_rowsUnder _ _ row).mp hrow).2

end KeptBySweep

/-! ## What lies in a bucket -/

/-- Whether contents are those of a name. -/
def Naming (contents : Bytes) : Prop :=
  ∃ name expireAt, Frame.decode contents = .ok ⟨.text name, expireAt⟩

/-- Whether contents are the metadata of a list, and count items if they can be
read. -/
structure Listing (readable : Prop) (contents : Bytes) : Prop where
  kind : Frame.peekKind contents = .ok .list
  describes : ∀ handle expireAt, Frame.decode contents = .ok ⟨.list handle, expireAt⟩ →
    ∃ count, Deque.Describes handle count
  decodes : readable → ∃ handle expireAt, Frame.decode contents = .ok ⟨.list handle, expireAt⟩

/-- Whether everything that lies in a bucket is the metadata of its list or a
name among its items. -/
def OnlyNames (readable : Prop) (table : Table) : Prop :=
  ∀ bucket physical contents, Key.IsBucket bucket → Key.ofText bucket <+: physical →
    table.get? physical = some contents →
      physical = Key.ofText bucket ∧ Listing readable contents ∨
        Key.itemStem bucket .list <+: physical ∧ Naming contents

/-- What may be written at a key that lies in a bucket. -/
def permitAt (readable : Prop) (key : String) : Permit where
  replaces := False
  item := fun contents => Key.IsBucket key → Naming contents
  readable := readable ∧ Key.IsBucket key

variable {readable : Prop} {table after : Table} {bucket name key : String}
  {physical contents : Bytes} {value : Value} {expireAt : Option Instant}

/-- Whatever row encodes a text can be listed as the name of a key. -/
theorem naming_of_encode (h : Frame.encode ⟨.text name, expireAt⟩ = .ok contents) :
    Naming contents :=
  ⟨name, _, Frame.decode_encode h trivial⟩

/-- A row that encodes a list handle may stand at a bucket key, as far as the handle
describes a list. -/
theorem listing_of_encode {handle : ListHandle}
    (h : Frame.encode ⟨.list handle, expireAt⟩ = .ok contents)
    (hdescribes : (Value.list handle).Storable → ∃ count, Deque.Describes handle count)
    (hreadable : readable → (Value.list handle).Storable) : Listing readable contents := by
  refine ⟨Frame.peekKind_encode h, fun found next hdecode => ?_, fun hread => ?_⟩
  · have hsame := Frame.handle_eq_of_decode h hdecode
    subst hsame
    exact hdescribes (Frame.storable_of_decode hdecode)
  · exact ⟨handle, _, Frame.decode_encode h (hreadable hread)⟩

namespace OnlyNames

/-- The empty store has nothing at a bucket key. -/
theorem empty (readable : Prop) : OnlyNames readable .empty :=
  fun _ _ _ _ _ hget => by cases hget

/-- Rows are only removed. -/
theorem thin (h : OnlyNames readable table) (hthins : table.Thins after) :
    OnlyNames readable after := by
  intro bucket physical contents hbucket hfront hget
  rcases hthins physical with hsame | hgone
  · exact h bucket physical contents hbucket hfront (hsame ▸ hget)
  · rw [hgone] at hget
    cases hget

/-- A key that does not lie in a bucket changes. -/
theorem of_agreeOff (h : OnlyNames readable table) (hkey : ¬ Key.InBucket key)
    (hagree : table.AgreeOff (Key.Owns key) after) : OnlyNames readable after := by
  intro bucket physical contents hbucket hfront hget
  have hother : ¬ Key.Owns key physical := fun howns =>
    hkey ⟨bucket, hbucket, hbucket.front_of_owns howns hfront⟩
  exact h bucket physical contents hbucket hfront (hagree physical hother ▸ hget)

/-! ## Writes into a bucket -/

/-- New metadata at a bucket key. -/
theorem insert_self (h : OnlyNames readable table) (hbucket : Key.IsBucket bucket)
    (hlisting : Listing readable contents) :
    OnlyNames readable (table.insert (Key.ofText bucket) contents) := by
  intro other physical found hother hfront hget
  rw [Table.get?_insert] at hget
  split at hget
  · rename_i heq
    cases hget
    cases hbucket.eq_of_front hother (heq ▸ List.prefix_rfl) hfront
    exact Or.inl ⟨heq.symm, hlisting⟩
  · exact h other physical found hother hfront hget

/-- A new item under a bucket key has to name a key. -/
theorem insert_item (h : OnlyNames readable table) (hbucket : Key.IsBucket bucket)
    (hstem : Key.itemStem bucket .list <+: physical) (hnaming : Naming contents) :
    OnlyNames readable (table.insert physical contents) := by
  intro other otherPhysical found hother hfront hget
  rw [Table.get?_insert] at hget
  split at hget
  · rename_i heq
    subst heq
    cases hget
    cases hbucket.eq_of_front hother ((List.prefix_append _ _).trans hstem) hfront
    exact Or.inr ⟨hstem, hnaming⟩
  · exact h other otherPhysical found hother hfront hget

/-- What lies at a bucket's own key is the metadata of its list. -/
theorem listing (h : OnlyNames readable table) (hbucket : Key.IsBucket bucket)
    (hget : table.get? (Key.ofText bucket) = some contents) : Listing readable contents := by
  rcases h bucket _ contents hbucket List.prefix_rfl hget with ⟨_, hlisting⟩ | ⟨hstem, _⟩
  · exact hlisting
  · exact absurd hstem (Key.not_itemStem_prefix_ofText bucket .list)

/-- The items of a bucket are names. -/
theorem naming (h : OnlyNames readable table) (hbucket : Key.IsBucket bucket)
    (hstem : Key.itemStem bucket .list <+: physical)
    (hget : table.get? physical = some contents) : Naming contents := by
  rcases h bucket physical contents hbucket ((List.prefix_append _ _).trans hstem) hget with
    ⟨rfl, _⟩ | ⟨_, hnaming⟩
  · exact absurd hstem (Key.not_itemStem_prefix_ofText bucket .list)
  · exact hnaming

/-- What can be read in a bucket is the bucket's list or a name among its
items. -/
theorem list_or_name (h : OnlyNames readable table) (hbucket : Key.IsBucket bucket)
    (hfront : Key.ofText bucket <+: physical) (hframe : table.HasFrame physical ⟨value, expireAt⟩) :
    (∃ handle, value = .list handle ∧ physical = Key.ofText bucket ∧
        ∃ count, Deque.Describes handle count) ∨
      ∃ name, value = .text name ∧ Key.itemStem bucket .list <+: physical := by
  obtain ⟨contents, hget, hdecode⟩ := hframe
  rcases h bucket physical contents hbucket hfront hget with
    ⟨hself, hlisting⟩ | ⟨hstem, name, expireAt', hname⟩
  · have hkind := Frame.peekKind_of_decode hdecode
    rw [hlisting.kind] at hkind
    cases value with
    | list handle => exact Or.inl ⟨handle, rfl, hself, hlisting.describes handle expireAt hdecode⟩
    | _ => cases hkind
  · rw [hname] at hdecode
    cases hdecode
    exact Or.inr ⟨name, rfl, hstem⟩

/-- No structure but a list lies in a bucket. -/
theorem marker_eq (h : OnlyNames readable table) (hbucket : Key.IsBucket bucket)
    (hfront : Key.ofText bucket <+: physical) (hframe : table.HasFrame physical ⟨value, expireAt⟩)
    {marker : Key.Marker} (hmarker : value.marker? = some marker) : marker = .list := by
  obtain ⟨handle, rfl, _⟩ | ⟨name, rfl, _⟩ := h.list_or_name hbucket hfront hframe
  · exact (Option.some.inj hmarker).symm
  · cases hmarker

/-- A list that lies in a bucket is the bucket's own. -/
theorem eq_of_list (h : OnlyNames readable table) (hbucket : Key.IsBucket bucket)
    (hfront : Key.ofText bucket <+: Key.ofText key) {handle : ListHandle}
    (hframe : table.HasFrame (Key.ofText key) ⟨.list handle, expireAt⟩) :
    key = bucket ∧ ∃ count, Deque.Describes handle count := by
  obtain ⟨handle, heq, hself, hdescribes⟩ | ⟨name, heq, _⟩ := h.list_or_name hbucket hfront hframe
  · cases heq
    exact ⟨Utf8.encode_injective hself, hdescribes⟩
  · cases heq

/-- The metadata at a bucket key is regular. -/
theorem regular (h : OnlyNames readable table) (hkey : Key.InBucket key) :
    Deque.Regular table key := by
  obtain ⟨bucket, hbucket, hfront⟩ := hkey
  exact fun handle expireAt hframe => (h.eq_of_list hbucket hfront hframe).2

/-! ## Edits -/

/-- An edit of a key that lies in a bucket leaves what fits there. -/
theorem edit (h : OnlyNames readable table) (hkey : Key.InBucket key)
    (hedit : Edit (permitAt readable key) key table after) : OnlyNames readable after := by
  obtain ⟨bucket, hbucket, hfront⟩ := hkey
  cases hedit with
  | dropItem _ => exact h.thin (.erase table _)
  | dropValue _ _ => exact h.thin (.erase table _)
  | putValue hpermit _ _ => exact hpermit.elim
  | restamp hframe hencode =>
      obtain ⟨handle, rfl, hself, hdescribes⟩ | ⟨name, rfl, hstem⟩ :=
        h.list_or_name hbucket hfront hframe
      · rw [hself]
        exact h.insert_self hbucket
          (listing_of_encode hencode (fun _ => hdescribes) fun _ => hframe.storable)
      · exact h.insert_item hbucket hstem (naming_of_encode hencode)
  | recount hframe hvalue hmarker _ _ =>
      exact absurd (h.marker_eq hbucket hfront hframe hvalue) hmarker
  | putItem hframe hvalue hmarker _ _ =>
      exact absurd (h.marker_eq hbucket hfront hframe hvalue) hmarker
  | setItem hframe _ _ hitem =>
      obtain ⟨rfl, _⟩ := h.eq_of_list hbucket hfront hframe
      exact h.insert_item hbucket (Key.itemStem_prefix_listItem key _) (hitem hbucket)
  | copyItem hframe _ _ hsource _ =>
      obtain ⟨rfl, _⟩ := h.eq_of_list hbucket hfront hframe
      have hnaming := h.naming hbucket (Key.itemStem_prefix_listItem key _) hsource
      exact h.insert_item hbucket (Key.itemStem_prefix_listItem key _) hnaming
  | rehandle hframe hencode hreadable hnext =>
      obtain ⟨rfl, _⟩ := h.eq_of_list hbucket hfront hframe
      exact h.insert_self hbucket (listing_of_encode hencode (fun hstorable => (hnext hstorable).1)
        fun hread => hreadable ⟨hread, hbucket⟩)
  | push hframe hdescribes hroom hitem hencode =>
      obtain ⟨rfl, _⟩ := h.eq_of_list hbucket hfront hframe
      have hgrown := Deque.describes_grown hdescribes hroom
      exact (h.insert_item hbucket (Key.itemStem_prefix_listItem key _) (hitem hbucket)).insert_self
        hbucket (listing_of_encode hencode (fun _ => ⟨_, hgrown⟩) fun _ => hgrown.storable)

/-- A bucket that holds only names keeps to that along every edit the reserved keys
permit. -/
theorem edits (h : OnlyNames readable table) (hkey : Key.InBucket key)
    (hedits : Edits (permitAt readable key) key table after) : OnlyNames readable after := by
  induction hedits with
  | refl => exact h
  | tail _ hedit ih => exact ih.edit hkey hedit

/-- A broken push leaves a name beside the list. -/
theorem torn (h : OnlyNames readable table) (hkey : Key.InBucket key)
    (htorn : Torn (permitAt readable key) key table after) : OnlyNames readable after := by
  obtain ⟨bucket, hbucket, hfront⟩ := hkey
  obtain ⟨handle, expireAt, index, item, hframe, hitem, rfl⟩ := htorn
  obtain ⟨rfl, _⟩ := h.eq_of_list hbucket hfront hframe
  exact h.insert_item hbucket (Key.itemStem_prefix_listItem key index) (hitem hbucket)

/-! ## Setting expiries -/

/-- An expiry is written into the frame of any key. -/
theorem maintains_stamp (key : String) (instant : Instant) :
    Maintains (OnlyNames readable) (stamp key instant) := by
  intro table h
  by_cases hkey : Key.InBucket key
  · exact (revises_stamp instant).edits.conseq fun _ _ hedits => h.edits hkey hedits
  · exact (Endures.of_confined (confined_stamp key instant) table).conseq fun _ _ hagree =>
      h.of_agreeOff hkey hagree

/-- Filing a name in a bucket keeps the buckets to names. -/
theorem maintains_push (hbucket : Key.IsBucket bucket) (name : String) :
    Maintains (OnlyNames readable) (Deque.push bucket (.text name) .right) := by
  intro table h
  have hitem : ∀ bytes, Frame.encode ⟨.text name, none⟩ = .ok bytes →
      (permitAt readable bucket).item bytes := fun _ hencode _ => naming_of_encode hencode
  apply (Deque.endures_push (h.regular hbucket.inBucket) .right hitem).conseq
  rintro _ after (hedits | ⟨_, htorn⟩)
  · exact h.edits hbucket.inBucket hedits
  · exact h.torn hbucket.inBucket htorn

/-- Creating a bucket keeps the buckets to names. -/
theorem maintains_writeEmpty (hbucket : Key.IsBucket bucket) :
    Maintains (OnlyNames readable) (Deque.writeHandle bucket .empty none) := by
  refine fun table h => endures_write (fun _ => h) fun contents hencode _ => ?_
  apply h.insert_self hbucket
  exact listing_of_encode hencode (fun _ => ⟨0, Deque.describes_empty⟩) fun _ => Or.inl rfl

/-- A name is listed in a bucket. -/
theorem maintains_enlist (hbucket : Key.IsBucket bucket) (name : String) :
    Maintains (OnlyNames readable) (enlist bucket name) := by
  have hpush := @maintains_push readable bucket hbucket name
  refine .bind (.bind (.of_readOnly (confined_read _)) fun found => ?_) fun _ => .pure _
  exact .ite (.bind (maintains_writeEmpty hbucket) fun _ => hpush) hpush

/-- Setting an expiry, filing included, keeps the buckets to names. -/
theorem maintains_setAt (width : BucketWidth) (now : Instant) (key : String) (instant : Instant) :
    Maintains (OnlyNames readable) (setAt width now key instant) :=
  maintains_setAt_of (maintains_stamp key instant)
    (maintains_enlist (Key.isBucket_bucket _) key) now

/-! ## Sweeping -/

/-- Every sweep keeps buckets of names. -/
theorem keptBySweeps (width : BucketWidth) (now : Instant) :
    KeptBySweep (OnlyNames readable) width now where
  takes := fun _ table h =>
    (Deque.endures_takeAll table _).conseq fun _ _ htaken => h.thin htaken.1
  settles := fun name _ => .of_thinning (thinning_settle width now _ name) fun _ _ h => h.thin
  enlists := fun name hbucket => maintains_enlist hbucket name

end OnlyNames
end Expiry

/-! ## Operations -/

namespace Operation

/-- Whether an operation makes no value in a bucket and lists nothing but texts
in the list of one. -/
structure Careful (op : Operation) : Prop where
  updates : op.updates = true → ∀ key, op.key? = some key → ¬ Key.InBucket key
  lists : ∀ key value, op.key? = some key → op.listed? = some value → Key.IsBucket key →
    ∃ text, value = .text text

/-- Operations that ask for no reserved key when they make values, and list texts
only, are careful. -/
theorem Careful.of_unreserved {op : Operation}
    (hupdates : op.updates = true → ∀ key ∈ op.key?, Key.isReserved key = false)
    (hlists : ∀ value ∈ op.listed?, value.kind = .text) : op.Careful := by
  constructor
  · intro hop key hkey hinside
    cases hinside.isReserved.symm.trans (hupdates hop key hkey)
  · intro key value _ hvalue _
    have hkind := hlists value hvalue
    cases value with
    | text text => exact ⟨text, rfl⟩
    | _ => cases hkind

end Operation

namespace Expiry.OnlyNames

variable {readable : Prop} {table : Table} {bucket key : String}

/-- An operation on a key that sets no expiry. -/
theorem endures_own (h : OnlyNames readable table) (env : Environment) {op : Operation}
    (hkey : op.key? = some key) (hschedules : op.schedules = false) (hcareful : op.Careful)
    (hrepair : op = .repair key → readable → Key.IsBucket key →
      table.countUnder (Key.itemStem key .list) < 9223372036854775808) :
    Endures table (op.perform env) fun _ after => OnlyNames readable after := by
  by_cases hinside : Key.InBucket key
  · have hallowed : op.Allowed (permitAt readable key) key table := by
      refine ⟨?_, fun value hlisted bytes hencode hbucket => ?_, fun hop ⟨hread, hbucket⟩ =>
        hrepair hop hread hbucket⟩
      · rintro (hunreserved | hupdates)
        · cases hinside.isReserved.symm.trans hunreserved
        · exact hcareful.updates hupdates key hkey hinside
      · obtain ⟨name, rfl⟩ := hcareful.lists key value hkey hlisted hbucket
        exact naming_of_encode hencode
    apply (op.endures_edits env hkey hschedules (h.regular hinside) hallowed).conseq
    rintro _ after (hedits | ⟨_, _, htorn⟩)
    · exact h.edits hinside hedits
    · exact h.torn hinside htorn
  · apply (Endures.of_confined (op.confined_perform env hkey hschedules) table).conseq
    exact fun _ _ hagree => h.of_agreeOff hinside hagree

/-- An operation on a key that sets its expiry. -/
theorem maintains_scheduling (env : Environment) {op : Operation} (hkey : op.key? = some key)
    (hschedules : op.schedules = true) : Maintains (OnlyNames readable) (op.perform env) :=
  op.maintains_scheduling_of env hkey hschedules (maintains_setAt env.width env.now key)

/-- An operation on no key. -/
theorem maintains_keyless (env : Environment) {op : Operation} (hkey : op.key? = none) :
    Maintains (OnlyNames readable) (op.perform env) := by
  cases op <;> cases hkey
  case flush => exact .of_readOnly (Operation.readOnly_perform env rfl)
  case sweep now => exact .map _ (keptBySweeps env.width now).sweep
  case sweepNow => exact .map _ (keptBySweeps env.width env.now).sweep

/-- Every operation leaves what fits into the buckets, whichever calls fail. -/
theorem endures_perform (h : OnlyNames readable table) (env : Environment) {op : Operation}
    (hcareful : op.Careful)
    (hrepair : ∀ key, op = .repair key → readable → Key.IsBucket key →
      table.countUnder (Key.itemStem key .list) < 9223372036854775808) :
    Endures table (op.perform env) fun _ after => OnlyNames readable after := by
  cases hkey : op.key? with
  | none => exact maintains_keyless env hkey table h
  | some key =>
      cases hschedules : op.schedules with
      | false => exact h.endures_own env hkey hschedules hcareful (hrepair key)
      | true => exact maintains_scheduling env hkey hschedules table h

/-! ## Draining -/

/-- Draining a bucket fails at no item. -/
theorem ends_drain (h : OnlyNames readable table) (hbucket : Key.IsBucket bucket) (first : Int64)
    (count : Nat) :
    Ends table (Deque.drain bucket first count) fun outcome _ =>
      ∃ names : List String, outcome = .ok (names.map .text) := by
  induction count generalizing first table with
  | zero => exact .pure ⟨[], rfl⟩
  | succ count ih =>
      obtain ⟨item, hrun⟩ : ∃ item : Option String,
          (Deque.readItem bucket first).run (.ofTable table) =
            (.ok (item.map .text), .ofTable table) := by
        cases hget : table.get? (Key.listItem bucket first) with
        | none => exact ⟨none, run_bind_ok (run_read_none hget)⟩
        | some contents =>
            obtain ⟨name, expireAt, hdecode⟩ :=
              h.naming hbucket (Key.itemStem_prefix_listItem bucket first) hget
            exact ⟨some name, run_bind_ok (run_read ⟨contents, hget, hdecode⟩)⟩
      refine .bind_run hrun (.bind_run (run_delete table _) ?_)
      apply Ends.bind (ih (h.thin (.erase table _)) (first + 1))
      · rintro e between ⟨names, heq⟩
        cases heq
      · rintro rest between ⟨names, heq⟩
        cases heq
        refine .pure ⟨item.toList ++ names, ?_⟩
        cases item <;> rfl

/-- A bucket whose metadata can be read can be drained, if there is a buffer for
its items. -/
theorem ends_takeAll {handle : ListHandle} {expireAt : Option Instant}
    (h : OnlyNames readable table) (hbucket : Key.IsBucket bucket)
    (hframe : table.HasFrame (Key.ofText bucket) ⟨.list handle, expireAt⟩)
    (hbuffer : (Deque.reserve bucket handle.length.toInt.toNat).run (.ofTable table) =
      (.ok (), .ofTable table)) :
    Ends table (Deque.takeAll bucket) fun outcome _ =>
      ∃ names : List String, outcome = .ok (names.map .text) := by
  obtain ⟨contents, hget, hdecode⟩ := hframe
  have hread : (Engine.get (Key.ofText bucket)).run (.ofTable table) =
      (.ok (some contents), .ofTable table) := hget ▸ Engine.run_get table _
  refine .bind_run hread ?_
  refine .bind_run (run_lift_ok (Frame.decodeAs_eq_ok_iff.mpr ⟨hdecode, rfl⟩) _) ?_
  have hend : ∀ (names : List String) (between : Table),
      Ends between
        (do
          Engine.delete (Key.ofText bucket)
          return names.map Value.text)
        fun outcome _ => ∃ names : List String, outcome = .ok (names.map .text) :=
    fun names between => .bind_run (run_delete between _) (.pure ⟨names, rfl⟩)
  refine .bind_run hbuffer ?_
  split
  · exact hend [] table
  · apply Ends.bind (h.ends_drain hbucket handle.head _)
    · rintro e between ⟨names, heq⟩
      cases heq
    · rintro items between ⟨names, heq⟩
      cases heq
      exact hend names between

end Expiry.OnlyNames

/-! ## Runs -/

namespace Session

open Expiry

/-- Whether each repair of a bucket in a run meets no more items than a list can
count. -/
def RepairsFit (session : Session) (steps : List Step) : Prop :=
  ∀ front key back, steps = front ++ .operation (.repair key) :: back → Key.IsBucket key →
    (session.run front).2.engine.table.countUnder (Key.itemStem key .list) < 9223372036854775808

/-- Along every careful run from an empty store the buckets hold only names, and they
can be read back as long as every repair fits. -/
theorem run_onlyNames (session : Session) (hstart : session.engine.table = .empty)
    (steps : List Step) (hcareful : ∀ op ∈ operations steps, op.Careful) :
    OnlyNames (session.RepairsFit steps) (session.run steps).2.engine.table := by
  refine run_keeps steps session (hstart ▸ .empty _) fun front op back hsplit h => ?_
  have hop : op ∈ operations steps := hsplit ▸ mem_operations front op back
  apply of_endures (h.endures_perform (session.run front).2.environment (hcareful op hop) _)
  rintro key rfl hfit hbucket
  exact hfit front key back hsplit hbucket

/-- After every run on an empty store, whatever its keys and whichever calls
fail, all that lies at a key that is read as that of a bucket is the metadata of
a list, and all that lies among its items is names, unless an operation made a
value in a bucket or listed something else there.  The metadata can be read if no
repair of a bucket met more items than a list can count, and the bucket drained if
there is a buffer for as many items as the metadata counts. -/
theorem run_buckets_names (session : Session) (hstart : session.engine.table = .empty)
    (steps : List Step) (hcareful : ∀ op ∈ operations steps, op.Careful)
    {physical contents : Bytes} (hstem : Utf8.encode Key.bucketStem <+: physical)
    (hordinal : (Key.bucketOrdinal? physical).isSome = true)
    (hget : (session.run steps).2.engine.table.get? physical = some contents) :
    let table := (session.run steps).2.engine.table
    ∃ bucket, physical = Key.ofText bucket ∧ Frame.peekKind contents = .ok .list ∧
      (∀ item found, Key.itemStem bucket .list <+: item → table.get? item = some found →
        ∃ name expireAt, Frame.decode found = .ok ⟨.text name, expireAt⟩) ∧
      (session.RepairsFit steps →
        ∃ handle expireAt, Frame.decode contents = .ok ⟨.list handle, expireAt⟩ ∧
          (handle.length.toInt.toNat ≤ Deque.maxItems ∨
              handle.length.toInt.toNat ≤ table.countUnder (Key.itemStem bucket .list) →
            ∃ (names : List String) (after : Table),
              (Deque.takeAll bucket).run (.ofTable table) =
                (.ok (names.map .text), .ofTable after))) := by
  intro table
  have h := run_onlyNames session hstart steps hcareful
  obtain ⟨bucket, rfl, hbucket⟩ := Key.exists_isBucket hstem hordinal
  have hlisting := h.listing hbucket hget
  refine ⟨bucket, rfl, hlisting.kind, fun item found hitem hfound => h.naming hbucket hitem hfound,
    fun hfit => ?_⟩
  obtain ⟨handle, expireAt, hdecode⟩ := hlisting.decodes hfit
  refine ⟨handle, expireAt, hdecode, fun hroom => ?_⟩
  have hbuffer : (Deque.reserve bucket handle.length.toInt.toNat).run (.ofTable table) =
      (.ok (), .ofTable table) := by
    obtain hsmall | hthere := hroom
    · exact Deque.run_reserve_of_le_maxItems _ hsmall
    · exact Deque.run_reserve_of_le hthere
  obtain ⟨_, after, hrun, names, rfl⟩ := h.ends_takeAll hbucket ⟨contents, hget, hdecode⟩ hbuffer
  exact ⟨names, after, hrun⟩

/-- A name that a caller lists in a bucket, beside the one of a key that expires,
and a repair of the bucket: all of it fits. -/
theorem run_buckets_names_repaired :
    let session : Session := ⟨.ofTable .empty, ⟨0⟩, ⟨60, by decide, by decide⟩, .none⟩
    let bucket := session.width.bucket (.ofInt64 90000000000)
    let steps : List Step := [.operation (.set "k" .null),
      .operation (.expireAt "k" (.ofInt64 90000000000)),
      .operation (.listPush bucket .left (.text "x")), .operation (.increase "n" 1),
      .operation (.repair bucket)]
    let table := (session.run steps).2.engine.table
    session.engine.table = .empty ∧ (∀ op ∈ operations steps, op.Careful) ∧
      Utf8.encode Key.bucketStem <+: Key.ofText bucket ∧
      (Key.bucketOrdinal? (Key.ofText bucket)).isSome = true ∧
      table.get? (Key.ofText bucket) ≠ none ∧ session.RepairsFit steps ∧
      ∃ (names : List String) (after : Table),
        (Deque.takeAll bucket).run (.ofTable table) = (.ok (names.map .text), .ofTable after) := by
  intro session bucket steps table
  have hbucket : Key.IsBucket bucket := Key.isBucket_bucket _
  have hcareful : ∀ op ∈ operations steps, op.Careful := by
    have hunreserved : ∀ op ∈ operations steps,
        (op.updates = true → ∀ key ∈ op.key?, Key.isReserved key = false) ∧
          ∀ value ∈ op.listed?, value.kind = .text := by
      decide +kernel
    exact fun op hop => .of_unreserved (hunreserved op hop).1 (hunreserved op hop).2
  have hfit : session.RepairsFit steps := by
    intro front key back hsplit _
    rcases front with - | ⟨_, - | ⟨_, - | ⟨_, - | ⟨_, - | ⟨_, front⟩⟩⟩⟩⟩ <;>
      simp only [steps, List.cons_append, List.nil_append, List.cons.injEq, Step.operation.injEq,
        Operation.repair.injEq, reduceCtorEq, false_and, and_false, List.nil_eq,
        List.append_eq_nil_iff] at hsplit
    obtain ⟨rfl, rfl, rfl, rfl, rfl, _⟩ := hsplit
    decide +kernel
  have hframe : table.HasFrame (Key.ofText bucket) ⟨.list ⟨-1, 0, 2⟩, none⟩ := by
    decide +kernel
  obtain ⟨contents, hcontents, hdecode⟩ := hframe
  obtain ⟨other, heq, _, _, hreadable⟩ := run_buckets_names session rfl steps hcareful hbucket.stem
    hbucket.ordinal hcontents
  cases Utf8.encode_injective heq
  obtain ⟨handle, expireAt, hfound, hdrained⟩ := hreadable hfit
  cases hdecode.symm.trans hfound
  exact ⟨rfl, hcareful, hbucket.stem, hbucket.ordinal, by simp [hcontents], hfit,
    hdrained (Or.inl (by decide))⟩

/-- A counter in the place of a bucket, and a leap second, which is not read back,
in front of the names of one: in both runs the key that expires is still there
after its bucket was swept. -/
theorem run_buckets_unreadable :
    let session : Session := ⟨.ofTable .empty, ⟨0⟩, ⟨60, by decide, by decide⟩, .none⟩
    let instant : Instant := .ofInt64 90000000000
    let bucket := session.width.bucket instant
    let leap : Value := .time ⟨86399, 1500000000, by decide, by decide⟩
    let scheduled : List Step := [.operation (.set "k" .null), .operation (.expireAt "k" instant)]
    let swept : Step := .operation (.sweep (.ofInt64 200000000000))
    let increased :=
      (session.run (.operation (.increase bucket 1) :: scheduled ++ [swept])).2.engine.table
    let pushed := (session.run
      (scheduled ++ [.operation (.listPush bucket .left leap), swept])).2.engine.table
    Key.IsBucket bucket ∧ increased.HasFrame (Key.ofText bucket) ⟨.int 1, none⟩ ∧
      increased.HasFrame (Key.ofText "k") ⟨.null, some instant⟩ ∧
      (pushed.get? (Key.listItem bucket (-1))).map Frame.peekKind = some (.ok .time) ∧
      pushed.HasFrame (Key.ofText "k") ⟨.null, some instant⟩ := by
  intro session instant bucket leap scheduled swept increased pushed
  exact ⟨Key.isBucket_bucket _, by decide +kernel, by decide +kernel, by decide +kernel,
    by decide +kernel⟩

end Session
end StructuredStore
