import StructuredStore.Proofs.Expiry.Losses

/-!
# What a sweep can reach

The names that a sweep finds in its buckets can be any texts: keys of other
buckets, of items, or of nothing.  Whatever the store holds and whichever calls
fail, a sweep changes nothing but the lists at buckets that are due and keys
whose expiry has come, with the items of their values.  The invariant behind it
is that no step gives a row an expiry, so that what is found expired on the way
was expired when the sweep began.

A bucket is drained into a buffer for as many items as its metadata promises.
Metadata that no operation wrote may promise more than a buffer can hold, and then
the sweep breaks off.  Rows off the lists of buckets are only removed, so that what
is too long when the sweep comes to it was so when it began.

Main results:

- `Table.Fades`, `Touches`: no row gets an expiry, and only the given keys change.
- `Deque.overlong_of_run_takeAll`: where the drain of a bucket breaks off.
- `touches_settle`, `touches_enlist`, `touches_sweepBuckets`: the parts of a
  sweep.
- `sweep_touches_only_expired`: a whole sweep, on any store.
- `sweep_breaks_off`: one that breaks off.
-/

namespace StructuredStore

open Engine Store

/-! ## Rows that get no expiry -/

/-- Whether each row of the second table is in the first one or stores no
expiry. -/
def Table.Fades (table after : Table) : Prop :=
  ∀ physical, after.get? physical = table.get? physical ∨
    (after.get? physical).bind Frame.storedExpiry = none

namespace Table.Fades

variable {table between after : Table} {physical bytes : Bytes} {key : String}

theorem refl (table : Table) : table.Fades table :=
  fun _ => Or.inl rfl

theorem trans (hfirst : table.Fades between) (hsecond : between.Fades after) :
    table.Fades after := by
  intro physical
  obtain hsame | hnone := hsecond physical
  · rw [hsame]
    exact hfirst physical
  · exact Or.inr hnone

/-- Rows are only removed. -/
theorem of_thins (h : table.Thins after) : table.Fades after := by
  intro physical
  obtain hsame | hgone := h physical
  · exact Or.inl hsame
  · exact Or.inr (by rw [hgone, Option.bind_none])

/-- A row is written without an expiry. -/
theorem insert {value : Value} (hencode : Frame.encode ⟨value, none⟩ = .ok bytes) :
    table.Fades (table.insert physical bytes) := by
  intro other
  rw [get?_insert]
  split
  · exact Or.inr (Frame.storedExpiry_encode hencode)
  · exact Or.inl rfl

theorem expiryOf_eq_none (h : table.Fades after) (hnone : table.expiryOf key = none) :
    after.expiryOf key = none := by
  obtain hsame | hfaded := h (Key.ofText key)
  · rw [expiryOf_congr hsame, hnone]
  · exact hfaded

/-- A frame with an expiry was there before. -/
theorem hasFrame (h : table.Fades after) {frame : Frame} {instant : Instant}
    (hframe : after.HasFrame physical frame) (hexpiry : frame.expireAt = some instant) :
    table.HasFrame physical frame := by
  obtain hsame | hfaded := h physical
  · exact hframe.congr hsame.symm
  · obtain ⟨contents, hget, hdecode⟩ := hframe
    rw [hget, Option.bind_some, ← Frame.expireAt_of_decode hdecode, hexpiry] at hfaded
    cases hfaded

end Table.Fades

/-- Whether a key is that of a frame whose expiry has come, or lies under the
marker of its items. -/
def Table.Expired (table : Table) (now : Instant) (physical : Bytes) : Prop :=
  ∃ name frame instant, table.HasFrame (Key.ofText name) frame ∧
    frame.expireAt = some instant ∧ instant ≤ now ∧ Key.OfValue name frame.value physical

/-- What is expired behind steps that give no row an expiry was so before. -/
theorem Table.Expired.of_fades {table after : Table} {now : Instant} {physical : Bytes}
    (h : after.Expired now physical) (hfades : table.Fades after) :
    table.Expired now physical := by
  obtain ⟨name, frame, instant, hframe, hexpiry, hcome, howns⟩ := h
  exact ⟨name, frame, instant, hfades.hasFrame hframe hexpiry, hexpiry, hcome, howns⟩

/-! ## Lists that are too long -/

/-- Whether the metadata of a list promises more items than a buffer can hold. -/
def Table.Overlong (table : Table) (key : String) : Prop :=
  ∃ handle expireAt, table.HasFrame (Key.ofText key) ⟨.list handle, expireAt⟩ ∧
    Deque.maxItems < handle.length.toInt

/-- Metadata that is there was there before, if the row was at most removed. -/
theorem Table.Overlong.of_thinned {table after : Table} {key : String} (h : after.Overlong key)
    (hthinned : after.get? (Key.ofText key) = table.get? (Key.ofText key) ∨
      after.get? (Key.ofText key) = none) : table.Overlong key := by
  obtain ⟨handle, expireAt, hframe, hlong⟩ := h
  rcases hthinned with hsame | hgone
  · exact ⟨handle, expireAt, hframe.congr hsame.symm, hlong⟩
  · exact absurd hgone hframe.get?_ne_none

/-- Taking a list breaks off only if it is too long for a buffer. -/
theorem Deque.overlong_of_run_takeAll {key : String} {engine left : Engine} {cause : Abort}
    (h : (takeAll key).run engine = (.error (.aborted cause), left)) :
    cause = .buffer ∧ engine.table.Overlong key := by
  have hself : Unbroken (Engine.delete (Key.ofText key)) := .perform _ _
  obtain hget | ⟨found, read, hget, hrest⟩ := cases_of_run_bind_error h
  · exact absurd (congrArg Prod.fst hget) (Unbroken.perform _ _ engine cause)
  obtain ⟨hread, hfound⟩ := (Finds.get engine.table _).of_run hget
  cases found with
  | none => cases hrest
  | some bytes =>
      obtain hlift | ⟨⟨value, expireAt⟩, lifted, hlift, hrest⟩ := cases_of_run_bind_error hrest
      · exact absurd (congrArg Prod.fst hlift) (Store.unbroken_lift _ read cause)
      obtain ⟨hlifted, hdecode⟩ := (Store.finds_lift read.table _).of_run hlift
      have hframe : engine.table.HasFrame (Key.ofText key) ⟨value, expireAt⟩ :=
        ⟨bytes, (hfound _ rfl).symm, (Frame.decodeAs_eq_ok_iff.mp (hdecode _ rfl)).1⟩
      cases value with
      | list handle =>
          obtain hreserve | ⟨_, reserved, _, hrest⟩ := cases_of_run_bind_error hrest
          · rw [run_reserve] at hreserve
            split at hreserve
            · rename_i hlong
              cases hreserve
              exact ⟨rfl, handle, expireAt, hframe, by omega⟩
            · cases hreserve
          · -- Behind the buffer nothing breaks off.
            have hdrain : Unbroken (drain key handle.head
                (Store.spanLength handle.head handle.tail)) := unbroken_drain _ _ _
            have hunbroken : Unbroken (do
                let items ←
                  if handle.length = 0 then pure []
                  else drain key handle.head (Store.spanLength handle.head handle.tail)
                Engine.delete (Key.ofText key)
                return items) := by
              refine .ite ?_ ?_
              · exact .bind (.pure []) fun _ => .bind hself fun _ => .pure _
              · exact .bind hdrain fun _ => .bind hself fun _ => .pure _
            exact absurd (congrArg Prod.fst hrest) (hunbroken reserved cause)
      | _ => cases hrest

namespace Expiry

/-! ## Changes of given keys -/

/-- Whether a change reaches only the given keys, gives no row an expiry, and only
removes rows off the list at a bucket. -/
structure Touches (bucket : String) (keys : Bytes → Prop) (table after : Table) : Prop where
  agree : table.AgreeOff keys after
  fades : table.Fades after
  thins : ∀ physical, ¬ Key.OfList bucket physical →
    after.get? physical = table.get? physical ∨ after.get? physical = none

variable {keys : Bytes → Prop} {table between after : Table} {bucket name : String}
  {width : BucketWidth} {now : Instant}

namespace Touches

theorem refl (bucket : String) (keys : Bytes → Prop) (table : Table) :
    Touches bucket keys table table :=
  ⟨.refl keys table, .refl table, fun _ _ => Or.inl rfl⟩

theorem trans (hfirst : Touches bucket keys table between)
    (hsecond : Touches bucket keys between after) : Touches bucket keys table after := by
  refine ⟨hfirst.agree.trans hsecond.agree, hfirst.fades.trans hsecond.fades, ?_⟩
  intro physical hoff
  rcases hsecond.thins physical hoff with hsame | hgone
  · rw [hsame]
    exact hfirst.thins physical hoff
  · exact Or.inr hgone

theorem mono {more : Bytes → Prop} (h : Touches bucket keys table after)
    (hsub : ∀ physical, keys physical → more physical) : Touches bucket more table after :=
  ⟨h.agree.mono hsub, h.fades, h.thins⟩

/-- Rows of the given keys are removed. -/
theorem of_thins (hagree : table.AgreeOff keys after) (hthins : table.Thins after) :
    Touches bucket keys table after :=
  ⟨hagree, .of_thins hthins, fun physical _ => hthins physical⟩

/-- A row of the list is written without an expiry. -/
theorem insert {physical bytes : Bytes} {value : Value} (hkey : Key.OfList bucket physical)
    (hencode : Frame.encode ⟨value, none⟩ = .ok bytes) :
    Touches bucket (Key.OfList bucket) table (table.insert physical bytes) := by
  have hagree : table.AgreeOff (Key.OfList bucket) (table.insert physical bytes) :=
    .insert hkey table bytes
  exact ⟨hagree, .insert hencode, fun other hoff => Or.inl (hagree other hoff)⟩

end Touches

/-! ## Parts of a sweep -/

/-- A candidate is left as it is, or is expired and removed with its items. -/
theorem touches_settle (table : Table) (width : BucketWidth) (now : Instant)
    (bucket name : String) :
    Endures table (settle width now bucket name) fun _ after =>
      Touches bucket (table.Expired now) table after := by
  apply (finds_read table _).before fun _ => .refl _ _ table
  intro found hframe
  cases found with
  | none => exact .pure (.refl _ _ table)
  | some frame =>
      cases hexpiry : frame.expireAt with
      | none =>
          simp only [hexpiry]
          exact .pure (.refl _ _ table)
      | some instant =>
          simp only [hexpiry]
          apply Endures.ite
          · intro hcome
            have hpurge : Endures table (purge name frame.value) fun _ after =>
                Touches bucket (table.Expired now) table after := by
              apply ((thinning_purge name frame.value table).and
                (.of_confined (confined_purge_value name frame.value) table)).conseq
              intro _ after ⟨hthins, hagree⟩
              refine .of_thins (hagree.mono fun physical howns => ?_) hthins
              exact ⟨name, frame, instant, hframe, hexpiry, hcome, howns⟩
            exact Endures.bind hpurge (fun _ _ h => h) fun _ _ h => .pure h
          · intro _
            exact .ite (fun _ => .pure (.refl _ _ table)) fun _ => .pure (.refl _ _ table)

/-- A list without an expiry gets an item and stays without one. -/
theorem touches_push (hnone : table.expiryOf bucket = none) (name : String) :
    Endures table (Deque.push bucket (.text name) .right) fun _ after =>
      Touches bucket (Key.OfList bucket) table after := by
  apply (Deque.finds_readHandle table bucket).before fun _ => .refl _ _ table
  intro ⟨handle, expireAt⟩ hframe
  have hnever : expireAt = none := hframe.expiryOf_eq.symm.trans hnone
  subst hnever
  apply (Deque.finds_grow table handle .right).before fun _ => .refl _ _ table
  intro ⟨grown, index⟩ _
  have hitem : ∀ item, Frame.encode ⟨.text name, none⟩ = .ok item →
      Touches bucket (Key.OfList bucket) table
        (table.insert (Key.listItem bucket index) item) :=
    fun item => .insert (Or.inr ⟨index, rfl⟩)
  apply endures_write_bind (fun _ => .refl _ _ table) fun item hencode _ => hitem item hencode
  intro item hencode
  have hhandle : ∀ contents, Frame.encode ⟨.list grown, none⟩ = .ok contents →
      Touches bucket (Key.OfList bucket) table
        ((table.insert (Key.listItem bucket index) item).insert (Key.ofText bucket) contents) :=
    fun contents hcontents => (hitem item hencode).trans (.insert (Or.inl rfl) hcontents)
  apply endures_write_bind (fun _ => hitem item hencode)
  · exact fun contents hcontents _ => hhandle contents hcontents
  · exact fun contents hcontents => .pure (hhandle contents hcontents)

/-- A name is enlisted in a bucket without an expiry. -/
theorem touches_enlist (hnone : table.expiryOf bucket = none) (name : String) :
    Endures table (enlist bucket name) fun _ after =>
      Touches bucket (Key.OfList bucket) table after := by
  have hcreating : Endures table (Deque.pushRightCreating bucket (.text name)) fun _ after =>
      Touches bucket (Key.OfList bucket) table after := by
    apply (finds_read table (Key.ofText bucket)).before fun _ => .refl _ _ table
    intro found _
    apply Endures.ite
    · intro _
      have hempty : ∀ contents, Frame.encode ⟨.list .empty, none⟩ = .ok contents →
          Touches bucket (Key.OfList bucket) table (table.insert (Key.ofText bucket) contents) :=
        fun contents => .insert (Or.inl rfl)
      apply endures_write_bind (fun _ => .refl _ _ table) fun contents hcontents _ =>
        hempty contents hcontents
      intro contents hcontents
      have hcreated := hempty contents hcontents
      apply (touches_push (hcreated.fades.expiryOf_eq_none hnone) name).conseq
      exact fun _ after hafter => hcreated.trans hafter
    · exact fun _ => touches_push hnone name
  exact Endures.bind hcreating (fun _ _ h => h) fun _ _ h => .pure h

/-- A list is taken with its items, and is gone if that succeeds. -/
theorem touches_takeAll (table : Table) (bucket : String) :
    Endures table (Deque.takeAll bucket) fun outcome after =>
      Touches bucket (Key.OfList bucket) table after ∧
        ∀ items, outcome = .ok items → after.expiryOf bucket = none := by
  apply ((Deque.endures_takeAll table bucket).and
    (.of_confined (Deque.confined_takeAll_list bucket) table)).conseq
  intro outcome after ⟨⟨hthins, htaken⟩, hagree⟩
  refine ⟨.of_thins hagree hthins, fun items hitems => ?_⟩
  exact Table.expiryOf_absent (htaken items hitems).1

/-- An entry of a bucket without an expiry is settled, and that never fails. -/
theorem touches_settleEntry (hlist : ∀ physical, Key.OfList bucket physical → keys physical)
    (hexpired : ∀ physical, table.Expired now physical → keys physical)
    (hnone : table.expiryOf bucket = none) (entry : Value) :
    Endures table (settleEntry width now bucket entry) fun outcome after =>
      (∃ report, outcome = .ok report) ∧ Touches bucket keys table after := by
  cases entry with
  | text name =>
      apply endures_unbroken_bind (unbroken_settle width now bucket name)
        (touches_settle table width now bucket name)
      intro result between hsettled
      have hsettled := hsettled.mono hexpired
      match result with
      | .error _ => exact .pure ⟨⟨_, rfl⟩, hsettled⟩
      | .ok .deleted => exact .pure ⟨⟨_, rfl⟩, hsettled⟩
      | .ok .stale => exact .pure ⟨⟨_, rfl⟩, hsettled⟩
      | .ok .notDue =>
          apply endures_unbroken_bind (unbroken_enlist bucket name)
            (touches_enlist (hsettled.fades.expiryOf_eq_none hnone) name)
          intro _ after henlisted
          exact .pure ⟨⟨_, rfl⟩, hsettled.trans (henlisted.mono hlist)⟩
  | _ => exact .pure ⟨⟨_, rfl⟩, .refl bucket keys table⟩

theorem touches_settleEntries (hlist : ∀ physical, Key.OfList bucket physical → keys physical)
    (hexpired : ∀ physical, table.Expired now physical → keys physical)
    (hnone : table.expiryOf bucket = none) (entries : List Value) :
    Endures table (settleEntries width now bucket entries) fun outcome after =>
      (∃ report, outcome = .ok report) ∧ Touches bucket keys table after := by
  induction entries generalizing table with
  | nil => exact .pure ⟨⟨_, rfl⟩, .refl bucket keys table⟩
  | cons entry entries ih =>
      apply Endures.bind_ok (touches_settleEntry hlist hexpired hnone entry)
      intro first between hfirst
      apply Endures.bind_ok (ih (fun physical h => hexpired physical (h.of_fades hfirst.fades))
        (hfirst.fades.expiryOf_eq_none hnone))
      intro rest after hrest
      exact .pure ⟨⟨_, rfl⟩, hfirst.trans hrest⟩

/-- A bucket is drained and its entries are settled. -/
theorem touches_sweepBucket (hlist : ∀ physical, Key.OfList bucket physical → keys physical)
    (hexpired : ∀ physical, table.Expired now physical → keys physical) :
    Endures table (sweepBucket width now bucket) fun _ after =>
      Touches bucket keys table after := by
  apply Endures.bind (touches_takeAll table bucket)
  · exact fun _ _ htaken => htaken.1.mono hlist
  intro entries between ⟨htaken, hgone⟩
  have htaken := htaken.mono hlist
  apply Endures.bind_ok (touches_settleEntries hlist
    (fun physical h => hexpired physical (h.of_fades htaken.fades)) (hgone entries rfl) entries)
  intro report after hsettled
  exact .pure (htaken.trans hsettled)

/-- A bucket breaks off only if it is too long for a buffer. -/
theorem overlong_of_run_sweepBucket {engine left : Engine} {cause : Abort}
    (h : (sweepBucket width now bucket).run engine = (.error (.aborted cause), left)) :
    cause = .buffer ∧ engine.table.Overlong bucket := by
  obtain htake | ⟨entries, drained, htake, _⟩ := cases_of_run_bind_error h
  · exact Deque.overlong_of_run_takeAll htake
  · obtain ⟨report, hrun⟩ : ∃ report, (sweepBucket width now bucket).run engine =
        (.ok report, ((settleEntries width now bucket entries).run drained).2) :=
      exists_run_sweepBucket htake
    rw [hrun] at h
    cases h

/-- How a sweep of buckets ends: it answers, or breaks off at one that is too long
for a buffer. -/
def AnswersUnlessOverlong (buckets : List String) (table : Table)
    (outcome : Except StoreError SweepReport) : Prop :=
  (∃ report, outcome = .ok report) ∨
    outcome = .error (.aborted .buffer) ∧ ∃ bucket ∈ buckets, table.Overlong bucket

/-- The other buckets are no longer than they were before one was swept. -/
theorem AnswersUnlessOverlong.behind {buckets : List String}
    {outcome : Except StoreError SweepReport} (hfirst : Touches bucket keys table between)
    (hbucket : Key.IsBucket bucket) (hbuckets : ∀ other ∈ buckets, Key.IsBucket other)
    (hnew : bucket ∉ buckets) (h : AnswersUnlessOverlong buckets between outcome) :
    AnswersUnlessOverlong (bucket :: buckets) table outcome := by
  refine h.imp_right fun ⟨hbroken, other, hother, hlong⟩ => ⟨hbroken, other, ?_, ?_⟩
  · exact List.mem_cons_of_mem _ hother
  · apply hlong.of_thinned
    apply hfirst.thins
    intro hlist
    have hsame : bucket = other :=
      Key.eq_of_owns_of_length (hbucket.likeBucket.length.trans
        (hbuckets other hother).likeBucket.length.symm) hlist.owns (.self other)
    exact hnew (hsame ▸ hother)

/-- Buckets are swept one after the other, which breaks off only at one that is too
long for a buffer. -/
theorem touches_sweepBuckets {buckets : List String} (hnodup : buckets.Nodup)
    (hbuckets : ∀ bucket ∈ buckets, Key.IsBucket bucket)
    (hlists : ∀ bucket ∈ buckets, ∀ physical, Key.OfList bucket physical → keys physical)
    (hexpired : ∀ physical, table.Expired now physical → keys physical) :
    Endures table (sweepBuckets width now buckets) fun outcome after =>
      AnswersUnlessOverlong buckets table outcome ∧ table.AgreeOff keys after := by
  induction buckets generalizing table with
  | nil => exact .pure ⟨Or.inl ⟨_, rfl⟩, .refl keys table⟩
  | cons bucket buckets ih =>
      obtain ⟨hnew, hnodup⟩ := List.nodup_cons.mp hnodup
      obtain ⟨hbucket, hbuckets⟩ := List.forall_mem_cons.mp hbuckets
      obtain ⟨hlist, hlists⟩ := List.forall_mem_cons.mp hlists
      have hsweep : Endures table (sweepBucket width now bucket) fun outcome after =>
          Touches bucket keys table after ∧
            ∀ cause, outcome = .error (.aborted cause) →
              cause = .buffer ∧ table.Overlong bucket := by
        refine (touches_sweepBucket hlist hexpired).and ⟨fun faults cause hbroken => ?_⟩
        exact overlong_of_run_sweepBucket (Prod.ext hbroken rfl)
      refine endures_attempt_bind hsweep ?_ ?_
      · rintro cause between ⟨hfirst, hbroken⟩
        obtain ⟨rfl, hlong⟩ := hbroken cause rfl
        exact ⟨Or.inr ⟨rfl, bucket, List.mem_cons_self, hlong⟩, hfirst.agree⟩
      · rintro first between ⟨hfirst, _⟩
        apply Endures.bind (ih hnodup hbuckets hlists fun physical h =>
          hexpired physical (h.of_fades hfirst.fades))
        · exact fun e after ⟨hends, hrest⟩ =>
            ⟨hends.behind hfirst hbucket hbuckets hnew, hfirst.agree.trans hrest⟩
        · rintro rest after ⟨_, hrest⟩
          cases first with
          | error e => exact .pure ⟨Or.inl ⟨_, rfl⟩, hfirst.agree.trans hrest⟩
          | ok report => exact .pure ⟨Or.inl ⟨_, rfl⟩, hfirst.agree.trans hrest⟩

/-! ## Sweeps -/

/-- Whether a key is read as that of a bucket up to a number. -/
structure IsBucketUpTo (limit : Nat) (bucket : String) : Prop extends Key.IsBucket bucket where
  le : ∀ ordinal, Key.bucketOrdinal? (Key.ofText bucket) = some ordinal → ordinal ≤ limit

theorem isBucketUpTo_of_visitRows {limit : Nat} {rows : List Row}
    (hrows : ∀ row ∈ rows, Utf8.encode Key.bucketStem <+: row.1)
    (h : bucket ∈ Table.visitRows (collectDue limit) [] rows) : IsBucketUpTo limit bucket := by
  refine ⟨isBucket_of_visitRows hrows (by simp) bucket h, fun ordinal hordinal => ?_⟩
  obtain hnil | ⟨row, _, hname, found, hle, hfound⟩ := mem_visitRows_collectDue h
  · cases hnil
  · rw [hname, hordinal] at hfound
    cases hfound
    exact hle

/-- Whether a sweep of the table may change a key: it is that of a list at a
bucket that is due, or expired. -/
def InReach (table : Table) (width : BucketWidth) (now : Instant) (physical : Bytes) : Prop :=
  (∃ bucket, IsBucketUpTo (Key.bucketOrdinal (Int64.ofInt (width.ceil now))) bucket ∧
    Key.OfList bucket physical) ∨ table.Expired now physical

/-- The buckets that the scan of a sweep finds are swept, which breaks off only at
one that is too long for a buffer. -/
theorem touches_due (table : Table) (width : BucketWidth) (now : Instant) {due : List String}
    (hdue : due = Table.visitRows
      (collectDue (Key.bucketOrdinal (Int64.ofInt (width.ceil now)))) []
      (table.rowsUnder (Utf8.encode Key.bucketStem))) :
    Endures table (sweepBuckets width now due.reverse) fun outcome after =>
      ((∃ report, outcome = .ok report) ∨
        outcome = .error (.aborted .buffer) ∧ ∃ bucket,
          IsBucketUpTo (Key.bucketOrdinal (Int64.ofInt (width.ceil now))) bucket ∧
          table.Overlong bucket) ∧
      table.AgreeOff (InReach table width now) after := by
  have hsorted := Table.sorted_rowsUnder table (Utf8.encode Key.bucketStem)
  have hnodup : due.reverse.Nodup := by
    rw [List.nodup_reverse, hdue]
    exact nodup_visitRows_collectDue hsorted List.nodup_nil (by simp)
  have hbuckets : ∀ bucket ∈ due.reverse,
      IsBucketUpTo (Key.bucketOrdinal (Int64.ofInt (width.ceil now))) bucket := by
    intro bucket hbucket
    rw [List.mem_reverse, hdue] at hbucket
    refine isBucketUpTo_of_visitRows (fun row hrow => ?_) hbucket
    exact ((Table.mem_rowsUnder _ _ row).mp hrow).2
  have hswept : Endures table (sweepBuckets width now due.reverse) fun outcome after =>
      AnswersUnlessOverlong due.reverse table outcome ∧
        table.AgreeOff (InReach table width now) after :=
    touches_sweepBuckets hnodup (fun bucket hbucket => (hbuckets bucket hbucket).toIsBucket)
      (fun bucket hbucket physical howns => Or.inl ⟨bucket, hbuckets bucket hbucket, howns⟩)
      fun physical hexpired => Or.inr hexpired
  refine hswept.conseq ?_
  rintro outcome after ⟨hends, hagree⟩
  refine ⟨hends.imp_right fun ⟨hbroken, bucket, hbucket, hlong⟩ => ?_, hagree⟩
  exact ⟨hbroken, bucket, hbuckets bucket hbucket, hlong⟩

/-- A whole sweep changes nothing out of its reach. -/
theorem touches_sweep (table : Table) (width : BucketWidth) (now : Instant) :
    Endures table (sweep width now) fun _ after =>
      table.AgreeOff (InReach table width now) after := by
  apply (Finds.visitUnder table _ _ _).before fun _ => .refl _ table
  intro due hdue
  exact (touches_due table width now hdue).conseq fun _ _ h => h.2

/-- Whatever the store holds, a sweep without failing calls succeeds, or breaks off
since the metadata of a bucket that is due promises more items than a buffer can
hold.  However it ends and whichever calls fail, it changes no row but those of lists
at buckets that are due, those of frames that it finds expired, and those under the
markers of their items. -/
theorem sweep_touches_only_expired (width : BucketWidth) (now : Instant) (engine : Engine) :
    let outcome := ((sweep width now).run engine).1
    let after := ((sweep width now).run engine).2.table
    (engine.faults = none → (∃ report, outcome = .ok report) ∨
      outcome = .error (.aborted .buffer) ∧ ∃ bucket handle expireAt,
        IsBucketUpTo (Key.bucketOrdinal (Int64.ofInt (width.ceil now))) bucket ∧
        engine.table.HasFrame (Key.ofText bucket) ⟨.list handle, expireAt⟩ ∧
        Deque.maxItems < handle.length.toInt) ∧
      ∀ physical, after.get? physical ≠ engine.table.get? physical →
        (∃ bucket, IsBucketUpTo (Key.bucketOrdinal (Int64.ofInt (width.ceil now))) bucket ∧
          Key.OfList bucket physical) ∨
        ∃ name frame instant, engine.table.HasFrame (Key.ofText name) frame ∧
          frame.expireAt = some instant ∧ instant ≤ now ∧
            Key.OfValue name frame.value physical := by
  intro outcome after
  obtain ⟨table, faults⟩ := engine
  constructor
  · rintro rfl
    -- Without failures the scan passes.
    refine ((touches_due table width now rfl).ends none).1.imp_right ?_
    rintro ⟨hbroken, bucket, hbucket, handle, expireAt, hframe, hlong⟩
    exact ⟨hbroken, bucket, handle, expireAt, hbucket, hframe, hlong⟩
  · intro physical hchanged
    by_contra hreach
    exact hchanged ((touches_sweep table width now).ends faults physical hreach)

/-- A candidate's name is that of an item of another key, beside a row that is no
frame: the item is removed, since its own expiry has come. -/
theorem sweep_touches_only_expired_item :
    let width : BucketWidth := ⟨60, by decide, by decide⟩
    let session : Session := ⟨.ofTable .empty, ⟨0⟩, width, .none⟩
    let steps : List Session.Step := [.operation (.set "k:M:f" .null),
      .operation (.expireAt "k:M:f" (.ofInt64 90000000000))]
    let engine : Engine :=
      .ofTable ((session.run steps).2.engine.table.insert (Key.ofText "junk") [0xff])
    let after := ((sweep width (.ofInt64 100000000000)).run engine).2.table
    engine.faults = none ∧
      (∃ report, ((sweep width (.ofInt64 100000000000)).run engine).1 = .ok report) ∧
      after.get? (Key.ofText "k:M:f") ≠ engine.table.get? (Key.ofText "k:M:f") ∧
      engine.table.Expired (.ofInt64 100000000000) (Key.ofText "k:M:f") := by
  intro width session steps engine after
  have hchanged : after.get? (Key.ofText "k:M:f") ≠ engine.table.get? (Key.ofText "k:M:f") := by
    decide +kernel
  obtain ⟨hends, htouches⟩ := sweep_touches_only_expired width (.ofInt64 100000000000) engine
  have hok := (hends rfl).resolve_right fun ⟨hbroken, _⟩ =>
    absurd hbroken (by decide +kernel)
  refine ⟨rfl, hok, hchanged, ?_⟩
  obtain ⟨bucket, hbucket, hlist⟩ | hexpired := htouches _ hchanged
  · -- The key does not start like that of a bucket.
    obtain ⟨tail, _, htail⟩ := hlist.owns.exists_tail
    have hstem : Utf8.encode Key.bucketStem <+: Key.ofText "k:M:f" := by
      rw [htail]
      exact hbucket.stem.trans (List.prefix_append _ _)
    exact absurd hstem (by decide)
  · exact hexpired

/-- The metadata of a bucket promises as many items as a number can count: the sweep
breaks off in front of the bucket of a key whose expiry has come, and keeps it. -/
theorem sweep_breaks_off :
    let width : BucketWidth := ⟨60, by decide, by decide⟩
    let session : Session := ⟨.ofTable .empty, ⟨0⟩, width, .none⟩
    let expiry : Instant := .ofInt64 90000000000
    let steps : List Session.Step := [.operation (.set "k" .null), .operation (.expireAt "k" expiry)]
    let bucket := width.bucket (.ofInt64 30000000000)
    let contents : Bytes :=
      0x10 :: (List.replicate 16 0 ++ List.replicate 7 0xff ++ 0x7f :: List.replicate 8 0)
    let engine : Engine :=
      .ofTable ((session.run steps).2.engine.table.insert (Key.ofText bucket) contents)
    let swept := (sweep width (.ofInt64 100000000000)).run engine
    engine.table.HasFrame (Key.ofText bucket) ⟨.list ⟨0, 0, Int64.maxValue⟩, none⟩ ∧
      swept.1 = .error (.aborted .buffer) ∧
      swept.2.table.HasFrame (Key.ofText "k") ⟨.null, some expiry⟩ := by
  decide +kernel

end Expiry
end StructuredStore
