import StructuredStore.Proofs.Expiry.Entries
import StructuredStore.Proofs.Expiry.Scanning
import StructuredStore.Proofs.Key.Collision

/-!
# What a sweep loses when calls fail

A sweep takes all entries out of a bucket before it settles them, so an entry is
lost when the drain of its bucket breaks off behind it, when its own settling
fails, and when it cannot be enlisted again.  In every other place a failing
call costs no entry: the sweep goes on with the next name or bucket, and entries
of the others stay where they are.

Main results:

- `Passes`, `endures_settleEntries`: what becomes of the entries of all buckets
  while those of a drained one are settled.
- `GivesUp`: the three ways in which a sweep loses an entry.
- `sweep_keeps_unless_givesUp`: there are no others.
- `sweep_broken_unfiled`: one of them.
-/

namespace StructuredStore

open Engine Store

namespace Expiry

/-! ## Parts of a sweep -/

/-- Whether no reserved key expires. -/
def Lasting (table : Table) : Prop :=
  ∀ key, Key.isReserved key = true → table.expiryOf key = none

/-- Only rows that hold an expiry can break it. -/
theorem lasting_of_rows {table : Table}
    (h : ∀ row ∈ table.rows, ∀ instant, Frame.storedExpiry row.2 = some instant →
      (Utf8.encode Key.bucketStem).isPrefixOf row.1 = false) : Lasting table := by
  intro key hreserved
  by_contra hexpires
  obtain ⟨instant, hexpiry⟩ := Option.ne_none_iff_exists'.mp hexpires
  obtain ⟨row, hrow, hkey, hinstant⟩ := Table.mem_rows_of_expiryOf hexpiry
  have hplain := h row hrow instant hinstant
  rw [hkey] at hplain
  cases hreserved.symm.trans hplain

/-- What every part of a sweep does to the frames of keys: it removes some of
those that are not reserved, and gives no reserved key an expiry. -/
structure Wears (table after : Table) : Prop where
  worn : ∀ key, Key.isReserved key = false →
    after.get? (Key.ofText key) = table.get? (Key.ofText key) ∨
      after.get? (Key.ofText key) = none
  lasting : Lasting table → Lasting after

/-- What settling does to the buckets: their entries stay, and their lists stay
in order. -/
structure Passes (table after : Table) : Prop extends Wears table after where
  entry : ∀ seconds name, table.HasEntry (Key.bucket seconds) name →
    after.HasEntry (Key.bucket seconds) name
  orderly : ∀ seconds, Orderly table (Key.bucket seconds) → Orderly after (Key.bucket seconds)

variable {table between after : Table} {width : BucketWidth} {now : Instant}
  {bucket name key : String}

namespace Wears

theorem refl (table : Table) : Wears table table :=
  ⟨fun _ _ => Or.inl rfl, id⟩

theorem trans (hfirst : Wears table between) (hsecond : Wears between after) :
    Wears table after := by
  refine ⟨fun key hkey => ?_, fun h => hsecond.lasting (hfirst.lasting h)⟩
  rcases hsecond.worn key hkey with hsame | hgone
  · rw [hsame]
    exact hfirst.worn key hkey
  · exact Or.inr hgone

/-- Rows are only removed. -/
theorem of_thins (h : table.Thins after) : Wears table after := by
  refine ⟨fun key _ => h (Key.ofText key), fun hlasting key hkey => ?_⟩
  rcases h (Key.ofText key) with hsame | hgone
  · rw [Table.expiryOf_congr hsame]
    exact hlasting key hkey
  · exact Table.expiryOf_absent hgone

/-- A reserved key changes as a bucket does. -/
theorem of_keeps (hbucket : Key.isReserved bucket = true) (h : Keeps bucket table after) :
    Wears table after := by
  constructor
  · intro key hkey
    left
    apply h.agree
    intro howns
    rw [Key.isReserved_of_owns hbucket howns] at hkey
    cases hkey
  · intro hlasting key hkey
    rcases h.expiry key with hsame | hnone
    · rw [hsame]
      exact hlasting key hkey
    · exact hnone

/-- A key that still expires did so before, and is not reserved. -/
theorem expiryOf_eq (h : Wears table after) (hlasting : Lasting table) {instant : Instant}
    (hexpiry : after.expiryOf key = some instant) : table.expiryOf key = some instant := by
  cases hkey : Key.isReserved key with
  | true =>
      rw [h.lasting hlasting key hkey] at hexpiry
      cases hexpiry
  | false =>
      rcases h.worn key hkey with hsame | hgone
      · rwa [Table.expiryOf_congr hsame] at hexpiry
      · rw [Table.expiryOf_absent hgone] at hexpiry
        cases hexpiry

end Wears

namespace Passes

theorem refl (table : Table) : Passes table table :=
  ⟨.refl table, fun _ _ h => h, fun _ h => h⟩

theorem trans (hfirst : Passes table between) (hsecond : Passes between after) :
    Passes table after :=
  ⟨hfirst.toWears.trans hsecond.toWears,
    fun seconds name h => hsecond.entry seconds name (hfirst.entry seconds name h),
    fun seconds h => hsecond.orderly seconds (hfirst.orderly seconds h)⟩

/-- A change elsewhere leaves the buckets as they are. -/
theorem of_agreeOff {keys : Bytes → Prop} (hwears : Wears table after)
    (hagree : table.AgreeOff keys after)
    (hkeys : ∀ seconds physical, Key.Owns (Key.bucket seconds) physical → ¬ keys physical) :
    Passes table after :=
  ⟨hwears,
    fun seconds _ h => h.congr fun physical howns => hagree physical (hkeys seconds physical howns),
    fun seconds h => h.congr (hagree _ (hkeys seconds _ (.self _)))⟩

/-- A name is enlisted in a bucket. -/
theorem of_enlists {α : Type} {outcome : Except StoreError α} (hbucket : Key.LikeBucket bucket)
    (h : Enlists bucket name table outcome after) : Passes table after := by
  refine ⟨.of_keeps hbucket.reserved h.keeps, fun seconds other hentry => ?_, fun seconds ho => ?_⟩
  · by_cases hsame : Key.bucket seconds = bucket
    · rw [hsame] at hentry ⊢
      exact h.keeps.entry other hentry
    · exact hentry.congr fun physical howns =>
        h.keeps.agree physical (hbucket.not_owns hsame howns)
  · by_cases hsame : Key.bucket seconds = bucket
    · rw [hsame] at ho ⊢
      exact h.orderly ho
    · exact ho.congr (h.keeps.agree _ (hbucket.not_owns hsame (.self _)))

end Passes

/-! ## Settling -/

/-- Settling a name, wherever it is broken off: if the name's key is settled as
stale, it does not expire in the bucket's slice of time, and if it is settled as
deleted, it is gone. -/
theorem endures_settle (hlasting : Lasting table) (width : BucketWidth) (now : Instant)
    (bucket name : String) :
    Endures table (settle width now bucket name) fun outcome after => Passes table after ∧
      (outcome = .ok .deleted → after.get? (Key.ofText name) = none) ∧
      (outcome = .ok .stale → ∀ instant, table.expiryOf name = some instant →
        width.bucket instant ≠ bucket) := by
  apply (finds_read table _).before
  · exact fun _ => ⟨.refl table, fun heq => (by cases heq), fun heq => by cases heq⟩
  intro found hfound
  cases found with
  | none =>
      refine .pure ⟨.refl table, fun heq => (by cases heq), fun _ instant hexpiry => ?_⟩
      rw [Table.expiryOf_absent hfound] at hexpiry
      cases hexpiry
  | some frame =>
      have hexpiry := Table.HasFrame.expiryOf_eq hfound
      obtain ⟨value, expireAt⟩ := frame
      cases expireAt with
      | none =>
          refine .pure ⟨.refl table, fun heq => (by cases heq), fun _ instant heq => ?_⟩
          cases hexpiry.symm.trans heq
      | some instant =>
          apply Endures.ite
          · intro _
            have hreserved : Key.isReserved name = false := by
              by_contra hnot
              cases (hlasting name (by simpa using hnot)).symm.trans hexpiry
            apply Endures.bind ((endures_purge table name value).and
              (.of_confined (confined_purge name value) table))
            · intro e between hbetween
              refine ⟨?_, fun heq => (by cases heq), fun heq => by cases heq⟩
              exact .of_agreeOff (.of_thins hbetween.1.1) hbetween.2
                fun _ _ hbucket hname => Key.not_owns_bucket hreserved hname hbucket
            · intro _ between hbetween
              refine .pure ⟨?_, fun _ => hbetween.1.2 () rfl, fun heq => by cases heq⟩
              exact .of_agreeOff (.of_thins hbetween.1.1) hbetween.2
                fun _ _ hbucket hname => Key.not_owns_bucket hreserved hname hbucket
          · intro _
            apply Endures.ite
            · exact fun _ => .pure ⟨.refl table, fun heq => (by cases heq), fun heq => by cases heq⟩
            · intro hother
              refine .pure ⟨.refl table, fun heq => (by cases heq), fun _ found heq => ?_⟩
              cases hexpiry.symm.trans heq
              exact hother

/-- Settling one entry never fails. -/
theorem endures_settleEntry (hlasting : Lasting table) (hbucket : Key.LikeBucket bucket)
    (width : BucketWidth) (now : Instant) (entry : Value) :
    Endures table (settleEntry width now bucket entry) fun outcome after =>
      (∃ report, outcome = .ok report) ∧ Passes table after := by
  cases entry with
  | text name =>
      apply endures_unbroken_bind (unbroken_settle _ _ _ _)
        (endures_settle hlasting width now bucket name)
      intro result between ⟨hpasses, _⟩
      match result with
      | .error _ => exact .pure ⟨⟨_, rfl⟩, hpasses⟩
      | .ok .deleted => exact .pure ⟨⟨_, rfl⟩, hpasses⟩
      | .ok .stale => exact .pure ⟨⟨_, rfl⟩, hpasses⟩
      | .ok .notDue =>
          apply endures_unbroken_bind (unbroken_enlist _ _) (endures_enlist between bucket name)
          intro _ after henlists
          exact .pure ⟨⟨_, rfl⟩, hpasses.trans (.of_enlists hbucket henlists)⟩
  | _ => exact .pure ⟨⟨_, rfl⟩, .refl table⟩

/-- Settling the entries of a bucket never fails. -/
theorem endures_settleEntries (hlasting : Lasting table) (hbucket : Key.LikeBucket bucket)
    (width : BucketWidth) (now : Instant) (entries : List Value) :
    Endures table (settleEntries width now bucket entries) fun outcome after =>
      (∃ report, outcome = .ok report) ∧ Passes table after := by
  induction entries generalizing table with
  | nil => exact .pure ⟨⟨_, rfl⟩, .refl table⟩
  | cons entry entries ih =>
      apply Endures.bind_ok (endures_settleEntry hlasting hbucket width now entry)
      intro first between hfirst
      apply Endures.bind_ok (ih (hfirst.lasting hlasting))
      intro rest after hrest
      exact .pure ⟨⟨_, rfl⟩, hfirst.trans hrest⟩

/-- A bucket is drained and its entries are settled.  Whatever fails, entries of
other buckets stay. -/
theorem endures_sweepBucket (hlasting : Lasting table) (hbucket : Key.LikeBucket bucket)
    (width : BucketWidth) (now : Instant) :
    Endures table (sweepBucket width now bucket) fun _ after => Wears table after ∧
      ∀ seconds name, Key.bucket seconds ≠ bucket → table.HasEntry (Key.bucket seconds) name →
        after.HasEntry (Key.bucket seconds) name := by
  have htake : Endures table (Deque.takeAll bucket) fun _ after => Wears table after ∧
      ∀ seconds name, Key.bucket seconds ≠ bucket → table.HasEntry (Key.bucket seconds) name →
        after.HasEntry (Key.bucket seconds) name := by
    apply ((Deque.endures_takeAll table bucket).and
      (.of_confined (Deque.confined_takeAll bucket) table)).conseq
    intro outcome after ⟨⟨hthins, _⟩, hagree⟩
    exact ⟨.of_thins hthins, fun seconds name hne h => h.congr fun physical howns =>
      hagree physical (hbucket.not_owns hne howns)⟩
  apply Endures.bind htake fun _ _ h => h
  intro entries between ⟨hwears, hentry⟩
  have hsettle := endures_settleEntries (hwears.lasting hlasting) hbucket width now entries
  apply Endures.bind_ok hsettle
  intro report after hpasses
  exact .pure ⟨hwears.trans hpasses.toWears, fun seconds name hne h =>
    hpasses.entry seconds name (hentry seconds name hne h)⟩

theorem endures_sweepBuckets (hlasting : Lasting table) {buckets : List String}
    (hbuckets : ∀ bucket ∈ buckets, Key.LikeBucket bucket) (width : BucketWidth) (now : Instant) :
    Endures table (sweepBuckets width now buckets) fun _ after => Wears table after := by
  induction buckets generalizing table with
  | nil => exact .pure (.refl table)
  | cons bucket buckets ih =>
      have hbucket := List.forall_mem_cons.mp hbuckets
      refine endures_attempt_bind (endures_sweepBucket hlasting hbucket.1 width now)
        (fun _ _ hbroken => hbroken.1) ?_
      intro first between ⟨hfirst, _⟩
      apply Endures.bind (ih (hfirst.lasting hlasting) hbucket.2)
      · exact fun e after hrest => hfirst.trans hrest
      · intro rest after hrest
        cases first with
        | error e => exact .pure (hfirst.trans hrest)
        | ok report => exact .pure (hfirst.trans hrest)

/-! ## Where a sweep goes on -/

section Runs

variable {α β : Type} {engine : Engine}

theorem passes_settleEntry (hlasting : Lasting engine.table) (hbucket : Key.LikeBucket bucket)
    (width : BucketWidth) (now : Instant) (entry : Value) :
    Passes engine.table ((settleEntry width now bucket entry).run engine).2.table :=
  ((endures_settleEntry hlasting hbucket width now entry).ends engine.faults).2

theorem passes_settleEntries (hlasting : Lasting engine.table) (hbucket : Key.LikeBucket bucket)
    (width : BucketWidth) (now : Instant) (entries : List Value) :
    Passes engine.table ((settleEntries width now bucket entries).run engine).2.table :=
  ((endures_settleEntries hlasting hbucket width now entries).ends engine.faults).2

theorem wears_sweepBuckets (hlasting : Lasting engine.table) {buckets : List String}
    (hbuckets : ∀ bucket ∈ buckets, Key.LikeBucket bucket) (width : BucketWidth) (now : Instant) :
    Wears engine.table ((sweepBuckets width now buckets).run engine).2.table :=
  (endures_sweepBuckets hlasting hbuckets width now).ends engine.faults

/-- What is answered at the end leaves the engine as it is. -/
theorem snd_run_bind_pure (action : StoreM α) (f : α → β) (engine : Engine) :
    ((action >>= fun a => (pure (f a) : StoreM β)).run engine).2 = (action.run engine).2 := by
  rw [run_bind]
  rcases action.run engine with ⟨_ | _, left⟩ <;> rfl

/-- Behind a name that is still to come stands the attempt to enlist it. -/
theorem snd_run_settleEntry_text (width : BucketWidth) (now : Instant) (bucket name : String)
    (engine : Engine) :
    ((settleEntry width now bucket (.text name)).run engine).2 =
      match (settle width now bucket name).run engine with
      | (.ok .notDue, left) => ((enlist bucket name).run left).2
      | (_, left) => left := by
  simp only [settleEntry]
  rw [run_bind_ok (run_attempt_of_unbroken (unbroken_settle width now bucket name) engine)]
  rcases (settle width now bucket name).run engine with ⟨e | outcome, left⟩
  · rfl
  · cases outcome with
    | notDue =>
        exact run_bind_ok (run_attempt_of_unbroken (unbroken_enlist bucket name) left) ▸ rfl
    | _ => rfl

/-- Settling an entry never fails. -/
theorem exists_run_settleEntry (width : BucketWidth) (now : Instant) (bucket : String)
    (entry : Value) (engine : Engine) :
    ∃ report left, (settleEntry width now bucket entry).run engine = (.ok report, left) := by
  cases entry with
  | text name =>
      have hnoted := run_attempt_of_unbroken (unbroken_settle width now bucket name) engine
      simp only [settleEntry]
      rw [run_bind_ok hnoted]
      rcases (settle width now bucket name).run engine with ⟨e | outcome, left⟩
      · exact ⟨_, _, rfl⟩
      · cases outcome with
        | notDue =>
            have hnoted := run_attempt_of_unbroken (unbroken_enlist bucket name) left
            exact ⟨_, _, run_bind_ok hnoted⟩
        | _ => exact ⟨_, _, rfl⟩
  | _ => exact ⟨_, _, rfl⟩

theorem snd_run_settleEntries_cons (width : BucketWidth) (now : Instant) (bucket : String)
    (entry : Value) (entries : List Value) (engine : Engine) :
    ((settleEntries width now bucket (entry :: entries)).run engine).2 =
      ((settleEntries width now bucket entries).run
        ((settleEntry width now bucket entry).run engine).2).2 := by
  obtain ⟨report, left, hrun⟩ := exists_run_settleEntry width now bucket entry engine
  rw [settleEntries, run_bind_ok hrun, hrun]
  exact snd_run_bind_pure _ _ left

theorem exists_run_settleEntries (width : BucketWidth) (now : Instant) (bucket : String)
    (entries : List Value) (engine : Engine) :
    ∃ report left, (settleEntries width now bucket entries).run engine = (.ok report, left) := by
  induction entries generalizing engine with
  | nil => exact ⟨_, _, rfl⟩
  | cons entry entries ih =>
      obtain ⟨first, between, hfirst⟩ := exists_run_settleEntry width now bucket entry engine
      obtain ⟨rest, left, hrest⟩ := ih between
      rw [settleEntries, run_bind_ok hfirst, run_bind_ok hrest]
      exact ⟨_, _, rfl⟩

theorem snd_run_settleEntries_append (width : BucketWidth) (now : Instant) (bucket : String)
    (front back : List Value) (engine : Engine) :
    ((settleEntries width now bucket (front ++ back)).run engine).2 =
      ((settleEntries width now bucket back).run
        ((settleEntries width now bucket front).run engine).2).2 := by
  induction front generalizing engine with
  | nil => rfl
  | cons entry front ih =>
      rw [List.cons_append, snd_run_settleEntries_cons, snd_run_settleEntries_cons, ih]

/-- Once its entries are taken, a bucket is swept: to settle them does not fail. -/
theorem exists_run_sweepBucket {entries : List Value} {drained : Engine}
    (htake : (Deque.takeAll bucket).run engine = (.ok entries, drained)) :
    ∃ report, (sweepBucket width now bucket).run engine =
      (.ok report, ((settleEntries width now bucket entries).run drained).2) := by
  obtain ⟨report, left, hrun⟩ := exists_run_settleEntries width now bucket entries drained
  rw [sweepBucket, run_bind_ok htake, run_bind_ok hrun, hrun]
  exact ⟨_, rfl⟩

/-- A bucket that breaks off breaks off the sweep. -/
theorem run_sweepBuckets_cons_broken {cause : Abort} {left : Engine}
    (hbroken : (sweepBucket width now bucket).run engine = (.error (.aborted cause), left))
    (buckets : List String) :
    (sweepBuckets width now (bucket :: buckets)).run engine = (.error (.aborted cause), left) := by
  rw [sweepBuckets, run_bind_error (run_attempt_of_aborted hbroken)]

/-- Behind any other bucket the sweep goes on with the rest. -/
theorem snd_run_sweepBuckets_cons {outcome : Except StoreError SweepReport} {left : Engine}
    (hrun : (sweepBucket width now bucket).run engine = (outcome, left))
    (hnoted : ∀ cause, outcome ≠ .error (.aborted cause)) (buckets : List String) :
    ((sweepBuckets width now (bucket :: buckets)).run engine).2 =
      ((sweepBuckets width now buckets).run left).2 := by
  rw [sweepBuckets, run_bind_ok (run_attempt_of_not_aborted hrun hnoted)]
  cases outcome with
  | error e => exact snd_run_bind_pure _ _ left
  | ok first => exact snd_run_bind_pure _ _ left

/-- If the rest answers, so does the whole. -/
theorem exists_run_sweepBuckets_cons {outcome : Except StoreError SweepReport}
    {left after : Engine} {buckets : List String} {report : SweepReport}
    (hrun : (sweepBucket width now bucket).run engine = (outcome, left))
    (hnoted : ∀ cause, outcome ≠ .error (.aborted cause))
    (hrest : (sweepBuckets width now buckets).run left = (.ok report, after)) :
    ∃ total, (sweepBuckets width now (bucket :: buckets)).run engine = (.ok total, after) := by
  rw [sweepBuckets, run_bind_ok (run_attempt_of_not_aborted hrun hnoted), run_bind_ok hrest]
  cases outcome with
  | error e => exact ⟨_, rfl⟩
  | ok first => exact ⟨_, rfl⟩

end Runs

/-! ## Lost entries -/

/-- Whether a sweep that drains a bucket in this state loses the entry of a key
there: the drain breaks off behind the entry, or the bucket is drained and the
settling of the key fails, or the key is still to come and enlisting it fails. -/
inductive GivesUp (width : BucketWidth) (now : Instant) (bucket name : String)
    (engine : Engine) : Prop where
  | drain {e : StoreError} {left : Engine}
      (htake : (Deque.takeAll bucket).run engine = (.error e, left))
      (hlost : ¬ left.table.HasEntry bucket name)
  | settle {front back : List Value} {drained settled left : Engine} {e : StoreError}
      (htake : (Deque.takeAll bucket).run engine = (.ok (front ++ .text name :: back), drained))
      (hfront : ((settleEntries width now bucket front).run drained).2 = settled)
      (hsettle : (Expiry.settle width now bucket name).run settled = (.error e, left))
  | enlist {front back : List Value} {drained settled between left : Engine} {e : StoreError}
      (htake : (Deque.takeAll bucket).run engine = (.ok (front ++ .text name :: back), drained))
      (hfront : ((settleEntries width now bucket front).run drained).2 = settled)
      (hsettle : (Expiry.settle width now bucket name).run settled = (.ok .notDue, between))
      (henlist : (Expiry.enlist bucket name).run between = (.error e, left))

/-- A key that still expires when its name was settled has its entry, or the
sweep gave it up. -/
theorem hasEntry_or_fails {engine : Engine} {instant : Instant} (hlasting : Lasting engine.table)
    (horderly : Orderly engine.table (width.bucket instant))
    (hexpiry : ((settleEntry width now (width.bucket instant) (.text key)).run
      engine).2.table.expiryOf key = some instant) :
    ((settleEntry width now (width.bucket instant) (.text key)).run engine).2.table.HasEntry
        (width.bucket instant) key ∨
      (∃ e left, (settle width now (width.bucket instant) key).run engine = (.error e, left)) ∨
      ∃ between e left,
        (settle width now (width.bucket instant) key).run engine = (.ok .notDue, between) ∧
        (enlist (width.bucket instant) key).run between = (.error e, left) := by
  have hpasses :=
    passes_settleEntry hlasting (Key.likeBucket_bucket (Int64.ofInt (width.ceil instant))) width now
      (.text key)
  have hbefore := hpasses.expiryOf_eq hlasting hexpiry
  rw [snd_run_settleEntry_text] at hexpiry ⊢
  rcases hsettle : (settle width now (width.bucket instant) key).run engine
    with ⟨e | outcome, between⟩
  · exact Or.inr (Or.inl ⟨e, between, rfl⟩)
  obtain ⟨hpasses, hdeleted, hstale⟩ :=
    (endures_settle hlasting width now (width.bucket instant) key).of_run hsettle
  rw [hsettle] at hexpiry
  cases outcome with
  | deleted =>
      rw [Table.expiryOf_absent (hdeleted rfl)] at hexpiry
      cases hexpiry
  | stale => exact absurd rfl (hstale rfl instant hbefore)
  | notDue =>
      rcases henlist : (enlist (width.bucket instant) key).run between with ⟨e | _, left⟩
      · exact Or.inr (Or.inr ⟨between, e, left, rfl, henlist⟩)
      · have henlists := (endures_enlist between.table (width.bucket instant) key).of_run henlist
        left
        dsimp only
        rw [henlist]
        exact henlists.listed (hpasses.orderly _ horderly) () rfl

/-- A key that still expires when its bucket was swept has its entry there, or
the sweep gave it up. -/
theorem hasEntry_or_givesUp {engine : Engine} {instant : Instant}
    (hlasting : Lasting engine.table)
    (hentry : engine.table.HasEntry (width.bucket instant) key)
    (hexpiry : ((sweepBucket width now (width.bucket instant)).run engine).2.table.expiryOf key =
      some instant) :
    ((sweepBucket width now (width.bucket instant)).run engine).2.table.HasEntry
        (width.bucket instant) key ∨
      GivesUp width now (width.bucket instant) key engine := by
  rcases htake : (Deque.takeAll (width.bucket instant)).run engine with ⟨e | entries, drained⟩
  · rw [sweepBucket, run_bind_error htake]
    by_cases hkept : drained.table.HasEntry (width.bucket instant) key
    · exact Or.inl hkept
    · exact Or.inr (.drain htake hkept)
  · rw [sweepBucket, run_bind_ok htake, snd_run_bind_pure] at hexpiry ⊢
    obtain ⟨hthins, htaken⟩ :=
      (Deque.endures_takeAll engine.table (width.bucket instant)).of_run htake
    obtain ⟨hgone, hitems⟩ := htaken entries rfl
    have hmem : Value.text key ∈ entries := by
      obtain ⟨handle, expireAt, hframe, index, hlow, hhigh, expireAt', hitem⟩ := hentry
      exact hitems handle expireAt hframe index _ hlow hhigh hitem
    obtain ⟨front, back, rfl⟩ := List.append_of_mem hmem
    rw [snd_run_settleEntries_append, snd_run_settleEntries_cons] at hexpiry ⊢
    -- The names in front, the key itself, and the names behind it.
    have hbucket := Key.likeBucket_bucket (Int64.ofInt (width.ceil instant))
    have hdrained := (Wears.of_thins hthins).lasting hlasting
    have hfront := passes_settleEntries hdrained hbucket width now front
    have hsettled := hfront.lasting hdrained
    have hreached := (passes_settleEntry hsettled hbucket width now (.text key)).lasting hsettled
    have hback := passes_settleEntries hreached hbucket width now back
    have hstill := hback.expiryOf_eq hreached hexpiry
    have horderly := hfront.orderly _ (.of_none hgone)
    rcases hasEntry_or_fails hsettled horderly hstill
      with hkept | ⟨e, left, hfails⟩ | ⟨between, e, left, hnotDue, hfails⟩
    · exact Or.inl (hback.entry _ key hkept)
    · exact Or.inr (.settle htake rfl hfails)
    · exact Or.inr (.enlist htake rfl hnotDue hfails)

/-! ## Sweeps -/

/-- Buckets are swept one after the other: a key that still expires in the end
has its entry, or was given up when its bucket was swept. -/
theorem hasEntry_or_givesUp_in {engine : Engine} {instant : Instant} {buckets : List String}
    (hbuckets : ∀ bucket ∈ buckets, Key.LikeBucket bucket) (hlasting : Lasting engine.table)
    (hentry : engine.table.HasEntry (width.bucket instant) key)
    (hexpiry : ((sweepBuckets width now buckets).run engine).2.table.expiryOf key =
      some instant) :
    ((sweepBuckets width now buckets).run engine).2.table.HasEntry (width.bucket instant) key ∨
      ∃ earlier later report reached, buckets = earlier ++ width.bucket instant :: later ∧
        (sweepBuckets width now earlier).run engine = (.ok report, reached) ∧
        GivesUp width now (width.bucket instant) key reached := by
  induction buckets generalizing engine with
  | nil => exact Or.inl hentry
  | cons bucket buckets ih =>
      have hbucket := List.forall_mem_cons.mp hbuckets
      obtain ⟨hfirst, hothers⟩ :=
        (endures_sweepBucket hlasting hbucket.1 width now).ends engine.faults
      have hnext := hfirst.lasting hlasting
      have hkept (hstill : ((sweepBucket width now bucket).run engine).2.table.expiryOf key =
          some instant) :
          ((sweepBucket width now bucket).run engine).2.table.HasEntry
              (width.bucket instant) key ∨
            bucket = width.bucket instant ∧
              GivesUp width now (width.bucket instant) key engine := by
        by_cases hsame : width.bucket instant = bucket
        · subst hsame
          exact (hasEntry_or_givesUp hlasting hentry hstill).imp_right fun h => ⟨rfl, h⟩
        · exact Or.inl (hothers _ key hsame hentry)
      by_cases hbroken : ∃ cause, ((sweepBucket width now bucket).run engine).1 =
          .error (.aborted cause)
      · obtain ⟨cause, hcause⟩ := hbroken
        obtain ⟨left, hleft⟩ := exists_run_eq hcause
        rw [run_sweepBuckets_cons_broken hleft] at hexpiry ⊢
        rw [hleft] at hkept
        rcases hkept hexpiry with hend | ⟨rfl, hgives⟩
        · exact Or.inl hend
        · exact Or.inr ⟨[], buckets, _, engine, rfl, rfl, hgives⟩
      · have hnoted := not_exists.mp hbroken
        rw [snd_run_sweepBuckets_cons rfl hnoted] at hexpiry ⊢
        have hstill := (wears_sweepBuckets hnext hbucket.2 width now).expiryOf_eq hnext hexpiry
        rcases hkept hstill with hkept | ⟨rfl, hgives⟩
        · rcases ih hbucket.2 hnext hkept hexpiry
            with hend | ⟨earlier, later, report, reached, rfl, hearlier, hgives⟩
          · exact Or.inl hend
          · obtain ⟨total, hrun⟩ := exists_run_sweepBuckets_cons rfl hnoted hearlier
            exact Or.inr ⟨bucket :: earlier, later, total, reached, rfl, hrun, hgives⟩
        · exact Or.inr ⟨[], buckets, _, engine, rfl, rfl, hgives⟩

/-- What the scan for buckets that are due finds is the key of a row, and read as
that of a bucket up to the limit. -/
theorem mem_visitRows_collectDue {limit : Nat} {rows : List Row} {found : List String}
    {bucket : String} (h : bucket ∈ Table.visitRows (collectDue limit) found rows) :
    bucket ∈ found ∨ ∃ row ∈ rows, row.1 = Key.ofText bucket ∧
      ∃ ordinal ≤ limit, Key.bucketOrdinal? row.1 = some ordinal := by
  obtain hold | ⟨row, htake, hname, hread⟩ := mem_visitRows_collectDue_iff.mp h
  · exact Or.inl hold
  · obtain ⟨ordinal, hordinal⟩ := Option.ne_none_iff_exists'.mp hread
    have hgo := List.all_eq_true.mp List.all_takeWhile row htake
    rw [goesOn, hordinal] at hgo
    exact Or.inr ⟨row, (List.takeWhile_sublist _).subset htake, hname, ordinal, by simpa using hgo,
      hordinal⟩

/-- What the scan for buckets that are due finds is read as the key of one. -/
theorem isBucket_of_visitRows {limit : Nat} {rows : List Row} {found : List String}
    (hrows : ∀ row ∈ rows, Utf8.encode Key.bucketStem <+: row.1)
    (hfound : ∀ bucket ∈ found, Key.IsBucket bucket) :
    ∀ bucket ∈ Table.visitRows (collectDue limit) found rows, Key.IsBucket bucket := by
  intro bucket hbucket
  obtain hold | ⟨row, hrow, hname, ordinal, _, hordinal⟩ := mem_visitRows_collectDue hbucket
  · exact hfound bucket hold
  · exact ⟨hname ▸ hrows row hrow, by rw [← hname, hordinal]; rfl⟩

/-- What the scan for buckets that are due finds is like them. -/
theorem likeBucket_of_visitRows {limit : Nat} {rows : List Row}
    (hrows : ∀ row ∈ rows, Utf8.encode Key.bucketStem <+: row.1) :
    ∀ bucket ∈ Table.visitRows (collectDue limit) [] rows, Key.LikeBucket bucket :=
  fun bucket hbucket => (isBucket_of_visitRows hrows (by simp) bucket hbucket).likeBucket

/-- Whether a sweep comes to a bucket in a state: its scan found the bucket, and
the ones in front of it were swept without breaking off. -/
def Reaches (width : BucketWidth) (now : Instant) (engine : Engine) (bucket : String)
    (reached : Engine) : Prop :=
  ∃ due scanned, (Engine.visitUnder (Utf8.encode Key.bucketStem)
      (collectDue (Key.bucketOrdinal (Int64.ofInt (width.ceil now)))) []).run engine =
        (.ok due, scanned) ∧
    ∃ earlier later report, due.reverse = earlier ++ bucket :: later ∧
      (sweepBuckets width now earlier).run scanned = (.ok report, reached)

/-- Whichever calls of a sweep fail, and whichever items cannot be read, every
key that still expires has its entry, unless the sweep gave it up in the state
in which it came to its bucket. -/
theorem sweep_keeps_unless_givesUp (width : BucketWidth) (now : Instant) (engine : Engine)
    (hfiled : Filed width engine.table)
    (hlasting : ∀ key, Key.isReserved key = true → engine.table.expiryOf key = none) :
    let after := ((sweep width now).run engine).2.table
    ∀ key instant, after.expiryOf key = some instant →
      after.HasEntry (width.bucket instant) key ∨
        ∃ reached, Reaches width now engine (width.bucket instant) reached ∧
          GivesUp width now (width.bucket instant) key reached := by
  intro after key instant hexpiry
  dsimp only [after] at hexpiry ⊢
  rcases hscan : (Engine.visitUnder (Utf8.encode Key.bucketStem)
      (collectDue (Key.bucketOrdinal (Int64.ofInt (width.ceil now)))) []).run engine
    with ⟨e | due, scanned⟩
  · have hsame := (Finds.visitUnder engine.table _ _ _).of_run hscan
    rw [sweep, run_bind_error hscan] at hexpiry ⊢
    rw [hsame.1] at hexpiry ⊢
    exact Or.inl (hfiled key instant hexpiry)
  · obtain ⟨hsame, hdue⟩ := (Finds.visitUnder engine.table _ _ _).of_run hscan
    rw [sweep, run_bind_ok hscan] at hexpiry ⊢
    have hbuckets : ∀ bucket ∈ due.reverse, Key.LikeBucket bucket := by
      intro bucket hbucket
      rw [List.mem_reverse, hdue due rfl] at hbucket
      apply likeBucket_of_visitRows _ bucket hbucket
      exact fun row hrow => ((Table.mem_rowsUnder _ _ row).mp hrow).2
    have hlasting' : Lasting scanned.table := by
      rw [hsame]
      exact hlasting
    have hbefore : engine.table.expiryOf key = some instant := by
      rw [← hsame]
      exact (wears_sweepBuckets hlasting' hbuckets width now).expiryOf_eq hlasting' hexpiry
    have hentry : scanned.table.HasEntry (width.bucket instant) key := by
      rw [hsame]
      exact hfiled key instant hbefore
    rcases hasEntry_or_givesUp_in hbuckets hlasting' hentry hexpiry
      with hkept | ⟨earlier, later, report, reached, hsplit, hearlier, hgives⟩
    · exact Or.inl hkept
    · exact Or.inr ⟨reached,
        ⟨due, scanned, hscan, earlier, later, report, hsplit, hearlier⟩, hgives⟩

/-- The read of one key fails when its bucket is drained already, and costs it
its entry.  The bucket of the other key is not due, and keeps what it lists. -/
theorem sweep_keeps_later_bucket :
    let width : BucketWidth := ⟨60, by decide, by decide⟩
    let session : Session := ⟨.ofTable .empty, ⟨0⟩, width, .none⟩
    let steps : List Session.Step := [.operation (.set "a" .null), .operation (.set "b" .null),
      .operation (.expireAt "a" (.ofInt64 90000000000)),
      .operation (.expireAt "b" (.ofInt64 150000000000))]
    let engine : Engine := ⟨(session.run steps).2.engine.table, some (.after [.get] 2)⟩
    let after := ((sweep width (.ofInt64 100000000000)).run engine).2.table
    Filed width engine.table ∧
      (∀ key, Key.isReserved key = true → engine.table.expiryOf key = none) ∧
      after.expiryOf "a" = some (.ofInt64 90000000000) ∧
      after.get? (Key.ofText (width.bucket (.ofInt64 90000000000))) = none ∧
      after.expiryOf "b" = some (.ofInt64 150000000000) ∧
      after.HasEntry (width.bucket (.ofInt64 150000000000)) "b" := by
  intro width session steps engine after
  have hrows : ∀ row ∈ engine.table.rows, ∀ instant ∈ Frame.storedExpiry row.2,
      row.1 = Key.ofText "a" ∧ instant = .ofInt64 90000000000 ∨
        row.1 = Key.ofText "b" ∧ instant = .ofInt64 150000000000 := by
    decide +kernel
  have hfiled : Filed width engine.table := by
    apply filed_of_rows
    intro row hrow instant hinstant
    rcases hrows row hrow instant hinstant with ⟨hkey, rfl⟩ | ⟨hkey, rfl⟩
    · exact ⟨"a", hkey.symm, ⟨0, 0, 1⟩, none, by decide +kernel, 0, by decide, by decide, none,
        by decide +kernel⟩
    · exact ⟨"b", hkey.symm, ⟨0, 0, 1⟩, none, by decide +kernel, 0, by decide, by decide, none,
        by decide +kernel⟩
  have hlasting : Lasting engine.table := by
    apply lasting_of_rows
    intro row hrow instant hinstant
    rcases hrows row hrow instant hinstant with ⟨hkey, _⟩ | ⟨hkey, _⟩ <;> rw [hkey] <;> decide
  have hafter : after.expiryOf "a" = some (.ofInt64 90000000000) ∧
      after.get? (Key.ofText (width.bucket (.ofInt64 90000000000))) = none ∧
      after.expiryOf "b" = some (.ofInt64 150000000000) := by
    decide +kernel
  have hdue : ((Engine.visitUnder (Utf8.encode Key.bucketStem)
      (collectDue (Key.bucketOrdinal (Int64.ofInt (width.ceil (.ofInt64 100000000000))))) []).run
        engine).1 = .ok [width.bucket (.ofInt64 90000000000)] := by
    decide +kernel
  refine ⟨hfiled, hlasting, hafter.1, hafter.2.1, hafter.2.2, ?_⟩
  rcases sweep_keeps_unless_givesUp width (.ofInt64 100000000000) engine hfiled hlasting "b" _
    hafter.2.2 with hkept | ⟨_, ⟨due, scanned, hscan, earlier, later, _, hsplit, _⟩, _⟩
  · exact hkept
  · -- The scan stops in front of the bucket of the other key.
    rw [hscan] at hdue
    cases hdue
    have hmem : width.bucket (.ofInt64 150000000000) ∈
        [width.bucket (.ofInt64 90000000000)].reverse := by
      rw [hsplit]
      simp
    exact absurd hmem (by decide)

/-- The second item of a bucket cannot be read: the first one is gone, and the
key behind it expires without an entry. -/
theorem sweep_broken_unfiled :
    let width : BucketWidth := ⟨60, by decide, by decide⟩
    let session : Session := ⟨.ofTable .empty, ⟨0⟩, width, .none⟩
    let instant : Instant := .ofInt64 90000000000
    let steps : List Session.Step := [.operation (.set "a" .null), .operation (.set "b" .null),
      .operation (.expireAt "a" instant), .operation (.expireAt "b" (.ofInt64 91000000000))]
    let engine : Engine := ⟨(session.run steps).2.engine.table, some (.after [.get] 2)⟩
    let after := ((sweep width (.ofInt64 100000000000)).run engine).2.table
    Filed width engine.table ∧
      ((sweep width (.ofInt64 100000000000)).run engine).1 = .ok .zero ∧
      after.expiryOf "a" = some instant ∧ ¬ after.HasEntry (width.bucket instant) "a" := by
  intro width session instant steps engine after
  have hfiled : Filed width engine.table := by
    have hrows : ∀ row ∈ engine.table.rows, ∀ instant ∈ Frame.storedExpiry row.2,
        row.1 = Key.ofText "a" ∧ instant = .ofInt64 90000000000 ∨
          row.1 = Key.ofText "b" ∧ instant = .ofInt64 91000000000 := by
      decide +kernel
    apply filed_of_rows
    intro row hrow instant hinstant
    rcases hrows row hrow instant hinstant with ⟨hkey, rfl⟩ | ⟨hkey, rfl⟩
    · exact ⟨"a", hkey.symm, ⟨0, 1, 2⟩, none, by decide +kernel, 0, by decide, by decide, none,
        by decide +kernel⟩
    · exact ⟨"b", hkey.symm, ⟨0, 1, 2⟩, none, by decide +kernel, 1, by decide, by decide, none,
        by decide +kernel⟩
  have hafter : ((sweep width (.ofInt64 100000000000)).run engine).1 = .ok .zero ∧
      after.expiryOf "a" = some instant ∧
      after.HasFrame (Key.ofText (width.bucket instant)) ⟨.list ⟨0, 1, 2⟩, none⟩ ∧
      after.get? (Key.listItem (width.bucket instant) 0) = none ∧
      after.HasFrame (Key.listItem (width.bucket instant) 1) ⟨.text "b", none⟩ := by
    decide +kernel
  obtain ⟨hzeros, hexpiry, hframe, hfirst, hsecond⟩ := hafter
  refine ⟨hfiled, hzeros, hexpiry, ?_⟩
  intro ⟨handle, expireAt, hlist, index, hlow, hhigh, expireAt', hitem⟩
  cases hframe.unique hlist
  have hzero : (0 : Int64).toInt = 0 := rfl
  have hone : (1 : Int64).toInt = 1 := rfl
  dsimp only at hlow hhigh
  have hplaces : index = 0 ∨ index = 1 := by
    rw [← Int64.toInt_inj, ← Int64.toInt_inj]
    omega
  rcases hplaces with rfl | rfl
  · exact hitem.get?_ne_none hfirst
  · have hname := congrArg Frame.value (hsecond.unique hitem)
    simp at hname

end Expiry
end StructuredStore
