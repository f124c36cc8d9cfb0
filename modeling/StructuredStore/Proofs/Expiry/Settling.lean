import StructuredStore.Proofs.Expiry.Attempts
import StructuredStore.Proofs.Layout.Consistent

/-!
# Settling the entries of a bucket

A sweep takes all names out of a bucket and settles them one after the other:
keys whose expiry has come are removed, and names whose keys still expire in the
bucket's slice of time go back.  Every other key stays as it is, and the bucket
is filled anew with the names that go back.

Main results:

- `Removes`: which keys a part of a sweep removes.
- `Returns`, `ends_settleEntries`: what becomes of the names taken out of a
  bucket.
- `Clears`, `ends_sweepBucket`, `ends_sweepBuckets`: what becomes of one bucket,
  and of several ones.
-/

namespace StructuredStore.Expiry

open Engine Store

/-! ## Removed keys -/

/-- What a part of a sweep leaves at a key: nothing if it removed the key, and
otherwise the row that was there. -/
structure Leaves (table : Table) (key : String) (gone : Prop) (after : Table) : Prop where
  absent : gone → after.get? (Key.ofText key) = none
  same : ¬ gone → after.get? (Key.ofText key) = table.get? (Key.ofText key)

namespace Leaves

variable {table after : Table} {key : String} {gone : Prop}

/-- A removed key has no expiry. -/
theorem expiryOf_absent (h : Leaves table key gone after) (hgone : gone) :
    after.expiryOf key = none :=
  Table.expiryOf_absent (h.absent hgone)

theorem expiryOf_same (h : Leaves table key gone after) (hgone : ¬ gone) :
    after.expiryOf key = table.expiryOf key :=
  Table.expiryOf_congr (h.same hgone)

end Leaves

/-- Whether exactly the keys in question were removed, and the other ones are as
they were. -/
structure Removes (table : Table) (gone : String → Prop) (after : Table) : Prop where
  vacant : ∀ key, Key.ColonFree key → gone key → after.Vacant key
  kept : ∀ key, Key.ColonFree key → ¬ gone key →
    ∀ physical, Key.Owns key physical → after.get? physical = table.get? physical

namespace Removes

variable {table between after : Table} {gone more : String → Prop} {key : String}

theorem refl (table : Table) (h : ∀ key, ¬ gone key) : Removes table gone table :=
  ⟨fun key _ hgone => absurd hgone (h key), fun _ _ _ _ _ => rfl⟩

theorem congr (h : Removes table gone after)
    (hiff : ∀ key, Key.ColonFree key → (gone key ↔ more key)) : Removes table more after :=
  ⟨fun key hkey hgone => h.vacant key hkey ((hiff key hkey).mpr hgone),
    fun key hkey hgone => h.kept key hkey fun h => hgone ((hiff key hkey).mp h)⟩

theorem trans (hfirst : Removes table gone between) (hsecond : Removes between more after) :
    Removes table (fun key => gone key ∨ more key) after := by
  constructor
  · intro key hkey hgone
    by_cases hmore : more key
    · exact hsecond.vacant key hkey hmore
    · intro physical howns
      rw [hsecond.kept key hkey hmore physical howns]
      exact hfirst.vacant key hkey (hgone.resolve_right hmore) physical howns
  · intro key hkey hgone physical howns
    rw [hsecond.kept key hkey (fun h => hgone (Or.inr h)) physical howns,
      hfirst.kept key hkey (fun h => hgone (Or.inl h)) physical howns]

/-- What was removed settles the rows of all keys. -/
theorem get?_eq {other : Table} (h : Removes table gone after) (hother : Removes table gone other)
    (hkey : Key.ColonFree key) {physical : Bytes} (howns : Key.Owns key physical) :
    other.get? physical = after.get? physical := by
  by_cases hgone : gone key
  · rw [h.vacant key hkey hgone physical howns, hother.vacant key hkey hgone physical howns]
  · rw [h.kept key hkey hgone physical howns, hother.kept key hkey hgone physical howns]

theorem leaves (h : Removes table gone after) (hkey : Key.ColonFree key) :
    Leaves table key (gone key) after :=
  ⟨fun hgone => h.vacant key hkey hgone _ (.self key),
    fun hgone => h.kept key hkey hgone _ (.self key)⟩

theorem expiryOf_gone (h : Removes table gone after) (hkey : Key.ColonFree key)
    (hgone : gone key) : after.expiryOf key = none :=
  (h.leaves hkey).expiryOf_absent hgone

theorem expiryOf_kept (h : Removes table gone after) (hkey : Key.ColonFree key)
    (hgone : ¬ gone key) : after.expiryOf key = table.expiryOf key :=
  (h.leaves hkey).expiryOf_same hgone

/-- No expiry is new. -/
theorem expiryOf_before (h : Removes table gone after) (hkey : Key.ColonFree key)
    {instant : Instant} (hafter : after.expiryOf key = some instant) :
    table.expiryOf key = some instant := by
  by_cases hgone : gone key
  · rw [h.expiryOf_gone hkey hgone] at hafter
    cases hafter
  · rwa [← h.expiryOf_kept hkey hgone]

/-- A change of a bucket removes no key. -/
theorem of_bucket {seconds : Int64}
    (h : table.AgreeOff (Key.Owns (Key.bucket seconds)) after) :
    Removes table (fun _ => False) after :=
  ⟨fun _ _ hgone => hgone.elim, fun _ hkey _ =>
    h.other (.bucket seconds) (Or.inl hkey) (hkey.ne_bucket seconds)⟩

end Removes

/-! ## Expiries that have come -/

/-- Whether there is an expiry and it has come. -/
def hasCome (now : Instant) (expiry : Option Instant) : Bool :=
  expiry.any fun instant => instant ≤ now

theorem hasCome_iff {now : Instant} {expiry : Option Instant} :
    hasCome now expiry = true ↔ ∃ instant, expiry = some instant ∧ instant ≤ now := by
  cases expiry <;> simp [hasCome]

/-- Whether there is an expiry, it is still to come, and it belongs into the
bucket. -/
def goesBack (width : BucketWidth) (now : Instant) (bucket : String) (expiry : Option Instant) :
    Bool :=
  expiry.any fun instant => !decide (instant ≤ now) && width.bucket instant = bucket

section Left

variable {table after : Table} {now : Instant} {key : String} {gone : Prop}

namespace Leaves

/-- What was removed because its expiry had come is not to go back. -/
theorem goesBack_eq (h : Leaves table key gone after)
    (hgone : gone → hasCome now (table.expiryOf key) = true) (width : BucketWidth)
    (bucket : String) :
    goesBack width now bucket (after.expiryOf key) =
      goesBack width now bucket (table.expiryOf key) := by
  by_cases hremoved : gone
  · have hcome := hgone hremoved
    rw [h.expiryOf_absent hremoved]
    cases hexpiry : table.expiryOf key with
    | none => rfl
    | some instant =>
        rw [hexpiry] at hcome
        simp only [hasCome, Option.any_some] at hcome
        simp [goesBack, hcome]
  · rw [h.expiryOf_same hremoved]

/-- Removed or not, an expiry that has come is that of a removed key. -/
theorem or_hasCome (h : Leaves table key gone after)
    (hgone : gone → hasCome now (table.expiryOf key) = true) :
    gone ∨ hasCome now (after.expiryOf key) = true ↔
      hasCome now (table.expiryOf key) = true := by
  by_cases hremoved : gone
  · exact ⟨fun _ => hgone hremoved, fun _ => Or.inl hremoved⟩
  · rw [h.expiryOf_same hremoved]
    simp [hremoved]

end Leaves
end Left

/-! ## Single entries -/

variable {table : Table} {steps : Nat} {names : Int64 → List String} {now : Instant}
  {width : BucketWidth} {name : String}

/-- What settling a name of a bucket leads to: its key is removed if the expiry
has come, and nothing else changes. -/
structure Settles (table : Table) (steps : Nat) (names : Int64 → List String) (now : Instant)
    (width : BucketWidth) (bucket name : String) (outcome : Except StoreError Outcome)
    (after : Table) : Prop where
  consistent : Consistent after steps names
  removes : Removes table (fun key => key = name ∧ hasCome now (table.expiryOf key) = true) after
  back : outcome = .ok .notDue ↔ goesBack width now bucket (table.expiryOf name) = true
  agree : table.AgreeOff (Key.Owns name) after
  deleted : outcome = .ok .deleted → after.population + 1 = table.population
  kept : outcome ≠ .ok .deleted → after.population = table.population

/-- A key that does not expire yet stays as it is. -/
theorem settles_same {bucket : String} {outcome : Except StoreError Outcome}
    (h : Consistent table steps names) (hcome : hasCome now (table.expiryOf name) = false)
    (hback : outcome = .ok .notDue ↔ goesBack width now bucket (table.expiryOf name) = true)
    (hkept : outcome ≠ .ok .deleted) :
    Settles table steps names now width bucket name outcome table := by
  refine ⟨h, .refl table ?_, hback, .refl _ table, fun heq => absurd heq hkept, fun _ => rfl⟩
  rintro key ⟨rfl, hkey⟩
  rw [hcome] at hkey
  cases hkey

/-- A candidate is removed if its expiry has come. -/
theorem ends_settle (h : Consistent table steps names) (hname : Key.ColonFree name)
    (bucket : String) :
    Ends table (settle width now bucket name) fun outcome after =>
      Settles table steps names now width bucket name outcome after := by
  have hholds := h.key name hname
  cases hexpiry : table.expiryOf name with
  | none =>
      rw [hexpiry] at hholds
      have hsame : ∀ {outcome : Except StoreError Outcome}, outcome ≠ .ok .notDue →
          outcome ≠ .ok .deleted →
          Settles table steps names now width bucket name outcome table := by
        intro outcome hnot hkept
        refine settles_same h ?_ ?_ hkept
        · rw [hexpiry]
          rfl
        · rw [hexpiry]
          exact ⟨fun heq => absurd heq hnot, fun heq => by cases heq⟩
      refine .bind (ends_read table (Key.ofText name)) ?_ ?_
      · rintro e between ⟨rfl, _⟩
        exact hsame (by simp) (by simp)
      · rintro found between ⟨rfl, hfound⟩
        cases found with
        | none => exact .pure (hsame (by simp) (by simp))
        | some frame =>
            have hframe := hholds.expireAt_eq hfound
            dsimp only
            rw [← hframe]
            exact .pure (hsame (by simp) (by simp))
  | some instant =>
      rw [hexpiry] at hholds
      rcases hholds.exists_frame with ⟨frame, hframe, hinstant⟩
      refine .bind_run (run_read hframe) ?_
      dsimp only
      rw [hinstant]
      dsimp only
      by_cases hcome : instant ≤ now
      · rw [if_pos hcome]
        refine .bind ((hholds.ends_purge hframe).confined (confined_purge name frame.value)) ?_ ?_
        · rintro e between ⟨⟨hok, _⟩, _⟩
          cases hok
        · rintro _ after ⟨⟨_, hvacant⟩, hagree⟩
          have hafter : Holds after name steps none := .vacant hvacant rfl
          have hremoved := hagree.population_removed hname hframe.get?_ne_none
            (hvacant _ (.self name))
          refine .pure ⟨h.of_key hname hagree le_rfl hafter, ⟨?_, ?_⟩, ?_, hagree,
            fun _ => hremoved, fun hkept => absurd rfl hkept⟩
          · rintro key _ ⟨rfl, _⟩
            exact hvacant
          · intro key hkey hkept
            refine hagree.other (Or.inl hname) (Or.inl hkey) ?_
            rintro rfl
            exact hkept ⟨rfl, by simp [hexpiry, hasCome, hcome]⟩
          · simp [hexpiry, goesBack, hcome]
      · rw [if_neg hcome]
        have hhasCome : hasCome now (table.expiryOf name) = false := by
          simp [hexpiry, hasCome, hcome]
        by_cases hbucket : width.bucket instant = bucket
        · rw [if_pos hbucket]
          exact .pure (settles_same h hhasCome (by simp [hexpiry, goesBack, hcome, hbucket])
            (by simp))
        · rw [if_neg hbucket]
          exact .pure (settles_same h hhasCome (by simp [hexpiry, goesBack, hcome, hbucket])
            (by simp))

/-! ## Returned names -/

/-- What goes back into a bucket out of which names were taken. -/
def returned (width : BucketWidth) (now : Instant) (table : Table) (bucket : String)
    (entries : List String) : List String :=
  entries.filter fun name => goesBack width now bucket (table.expiryOf name)

/-- What settling names that were taken out of a bucket leads to: those whose
expiry is still to come in the bucket's slice go back behind those that are
there, and those whose expiry has come are removed.  Other buckets stay as they
are. -/
structure Returns (table : Table) (steps : Nat) (names : Int64 → List String) (now : Instant)
    (width : BucketWidth) (seconds : Int64) (entries : List String) (after : Table) : Prop where
  consistent : Consistent after steps (Function.update names seconds
    (names seconds ++ returned width now table (Key.bucket seconds) entries))
  /-- The indices of the bucket's list start anew, so there is room. -/
  tight : Listed after (Key.bucket seconds)
    (names seconds ++ returned width now table (Key.bucket seconds) entries).length
    (names seconds ++ returned width now table (Key.bucket seconds) entries)
  filled : Filled after (Key.bucket seconds)
    (names seconds ++ returned width now table (Key.bucket seconds) entries)
  removes : Removes table (fun key => key ∈ entries ∧ hasCome now (table.expiryOf key) = true) after
  others : ∀ other, other ≠ seconds → ∀ physical, Key.Owns (Key.bucket other) physical →
    after.get? physical = table.get? physical

namespace Returns

variable {seconds : Int64} {entries : List String} {between after : Table}

theorem nil (h : Consistent table steps names)
    (htight : Listed table (Key.bucket seconds) (names seconds).length (names seconds))
    (hfilled : Filled table (Key.bucket seconds) (names seconds)) :
    Returns table steps names now width seconds [] table := by
  have hnil : names seconds ++ returned width now table (Key.bucket seconds) [] = names seconds :=
    List.append_nil _
  constructor
  · rwa [hnil, Function.update_eq_self]
  · rwa [hnil]
  · rwa [hnil]
  · exact .refl table fun key hkey => by cases hkey.1
  · exact fun _ _ _ _ => rfl

/-- Names are settled one after the other. -/
theorem cons (hfirst : Returns table steps names now width seconds [name] between)
    (hrest : Returns between steps (Function.update names seconds
        (names seconds ++ returned width now table (Key.bucket seconds) [name]))
      now width seconds entries after)
    (hentries : ∀ other ∈ entries, Key.ColonFree other) :
    Returns table steps names now width seconds (name :: entries) after := by
  have hgone : ∀ key, key ∈ [name] ∧ hasCome now (table.expiryOf key) = true →
      hasCome now (table.expiryOf key) = true := fun _ hkey => hkey.2
  have hlater : returned width now between (Key.bucket seconds) entries
      = returned width now table (Key.bucket seconds) entries := by
    apply List.filter_congr
    intro other hother
    exact (hfirst.removes.leaves (hentries other hother)).goesBack_eq (hgone other) width _
  have hsplit : returned width now table (Key.bucket seconds) (name :: entries)
      = returned width now table (Key.bucket seconds) [name]
        ++ returned width now table (Key.bucket seconds) entries :=
    @List.filter_append _ _ [name] entries
  have hconsistent := hrest.consistent
  have htight := hrest.tight
  have hfilled := hrest.filled
  rw [Function.update_self, hlater, List.append_assoc, ← hsplit] at hconsistent htight hfilled
  rw [Function.update_idem] at hconsistent
  refine ⟨hconsistent, htight, hfilled,
    (hfirst.removes.trans hrest.removes).congr fun key hkey => ?_,
    fun other hother physical howns => (hrest.others other hother physical howns).trans
      (hfirst.others other hother physical howns)⟩
  have hcome := (hfirst.removes.leaves hkey).or_hasCome (hgone key)
  rw [List.mem_singleton] at hcome ⊢
  rw [List.mem_cons]
  constructor
  · rintro (⟨hsame, hcome'⟩ | ⟨hmem, hcome'⟩)
    · exact ⟨Or.inl hsame, hcome'⟩
    · exact ⟨Or.inr hmem, hcome.mp (Or.inr hcome')⟩
  · rintro ⟨hmem, hcome'⟩
    rcases hmem with hsame | hmem
    · exact Or.inl ⟨hsame, hcome'⟩
    · exact (hcome.mpr hcome').imp id fun hstill => ⟨hmem, hstill⟩

end Returns

/-- One name that was taken out of a bucket is settled. -/
theorem ends_settleEntry {seconds : Int64} (h : Consistent table steps names)
    (htight : Listed table (Key.bucket seconds) (names seconds).length (names seconds))
    (hfilled : Filled table (Key.bucket seconds) (names seconds))
    (hname : Key.ColonFree name ∧ Writable name) (hroom : (names seconds).length + 1 ≤ steps)
    (hsteps : steps < 9223372036854775808) :
    Ends table (settleEntry width now (Key.bucket seconds) (.text name)) fun outcome after =>
      ∃ report, outcome = .ok report ∧ report.deleted + after.population = table.population ∧
        Returns table steps names now width seconds [name] after := by
  refine ends_unbroken_bind (unbroken_settle _ _ _ _) (ends_settle h hname.1 (Key.bucket seconds)) ?_
  intro result between hsettles
  have hbuckets : ∀ other physical, Key.Owns (Key.bucket other) physical →
      between.get? physical = table.get? physical := fun other =>
    hsettles.agree.other (Or.inl hname.1) (.bucket other) (hname.1.ne_bucket other).symm
  have htight' := htight.congr (hbuckets seconds)
  have hfilled' := hfilled.congr (hbuckets seconds)
  have hremoves : Removes table
      (fun key => key ∈ [name] ∧ hasCome now (table.expiryOf key) = true) between :=
    hsettles.removes.congr fun key _ => by rw [List.mem_singleton]
  -- A name that does not go back.
  have hdropped : result ≠ .ok .notDue →
      Returns table steps names now width seconds [name] between := by
    intro hresult
    have hnot : ¬ goesBack width now (Key.bucket seconds) (table.expiryOf name) = true :=
      fun hgoes => hresult (hsettles.back.mpr hgoes)
    have hnil : names seconds ++ returned width now table (Key.bucket seconds) [name]
        = names seconds := by
      simp [returned, hnot]
    constructor
    · rw [hnil, Function.update_eq_self]
      exact hsettles.consistent
    · rwa [hnil]
    · rwa [hnil]
    · exact hremoves
    · exact fun other _ => hbuckets other
  have hstays : result ≠ .ok .deleted → 0 + between.population = table.population :=
    fun hresult => (Nat.zero_add _).trans (hsettles.kept hresult)
  rcases result with e | outcome
  · exact .pure ⟨_, rfl, hstays (by simp), hdropped (by simp)⟩
  · cases outcome with
    | deleted =>
        refine .pure ⟨_, rfl, ?_, hdropped (by simp)⟩
        rw [Nat.add_comm]
        exact hsettles.deleted rfl
    | stale => exact .pure ⟨_, rfl, hstays (by simp), hdropped (by simp)⟩
    | notDue =>
        have hback : returned width now table (Key.bucket seconds) [name] = [name] := by
          have hgoes := hsettles.back.mp rfl
          simp [returned, hgoes]
        refine ends_unbroken_bind (unbroken_enlist _ _) (((ends_enlist htight' (by omega) name).and
          (hfilled'.ends_enlist name)).confined (confined_enlist _ name)) ?_
        rintro result after ⟨⟨hlisted, hfilled''⟩, hagree⟩
        cases hlisted with
        | refused hwritable => exact absurd hname.2 hwritable
        | listed _ hlisted =>
            refine .pure ⟨_, rfl, ?_, ?_, ?_, ?_, ?_, ?_⟩
            · rw [hagree.population_bucket]
              exact hstays (by simp)
            · rw [hback]
              exact hsettles.consistent.of_enlisted hname hagree le_rfl (hlisted.mono hroom)
            · rwa [hback, List.length_append, List.length_singleton]
            · rwa [hback]
            · exact (hremoves.trans (.of_bucket hagree)).congr fun key _ => or_iff_left id
            · intro other hother physical howns
              exact (hagree.other (.bucket seconds) (.bucket other)
                (fun heq => hother (Key.bucket_injective heq)) physical howns).trans
                (hbuckets other physical howns)

/-- All names that were taken out of a bucket are settled. -/
theorem ends_settleEntries {seconds : Int64} {entries : List String}
    (h : Consistent table steps names)
    (htight : Listed table (Key.bucket seconds) (names seconds).length (names seconds))
    (hfilled : Filled table (Key.bucket seconds) (names seconds))
    (hentries : ∀ name ∈ entries, Key.ColonFree name ∧ Writable name)
    (hroom : (names seconds).length + entries.length ≤ steps)
    (hsteps : steps < 9223372036854775808) :
    Ends table (settleEntries width now (Key.bucket seconds) (entries.map .text))
      fun outcome after =>
        ∃ report, outcome = .ok report ∧ report.deleted + after.population = table.population ∧
          Returns table steps names now width seconds entries after := by
  induction entries generalizing table names with
  | nil => exact .pure ⟨_, rfl, Nat.zero_add _, .nil h htight hfilled⟩
  | cons name entries ih =>
      rcases List.forall_mem_cons.mp hentries with ⟨hname, hrest⟩
      rw [List.length_cons] at hroom
      refine .bind_answer (ends_settleEntry h htight hfilled hname (by omega) hsteps) ?_
      rintro first between ⟨hdeleted, hfirst⟩
      have hcount : (returned width now table (Key.bucket seconds) [name]).length ≤ 1 :=
        List.length_filter_le _ [name]
      have hnext := ih hfirst.consistent
        (by rw [Function.update_self]; exact hfirst.tight)
        (by rw [Function.update_self]; exact hfirst.filled) hrest
        (by rw [Function.update_self, List.length_append]; omega)
      refine .bind_answer hnext ?_
      rintro rest after ⟨hdeleted', hafter⟩
      refine .pure ⟨_, rfl, ?_, hfirst.cons hafter fun other hother => (hrest other hother).1⟩
      rw [← hdeleted, ← hdeleted', SweepReport.add, Nat.add_assoc]

/-! ## Buckets -/

/-- A bucket is emptied; no key changes. -/
theorem ends_drain (h : Consistent table steps names) (seconds : Int64) :
    Ends table (Deque.takeAll (Key.bucket seconds)) fun outcome after =>
      outcome = .ok ((names seconds).map .text) ∧ after.Vacant (Key.bucket seconds) ∧
        Consistent after steps (Function.update names seconds []) ∧
        Removes table (fun _ => False) after := by
  refine ((ends_takeAll (h.bucket seconds)).confined (Deque.confined_takeAll _)).conseq ?_
  rintro outcome after ⟨⟨htaken, hvacant⟩, hagree⟩
  have hafter := h.of_bucket hagree le_rfl (listed_of_vacant hvacant steps)
    fun _ hmem => by cases hmem
  exact ⟨htaken, hvacant, hafter, .of_bucket hagree⟩

/-- The names that all buckets list once several of them were swept. -/
def sweptNames (width : BucketWidth) (now : Instant) (table : Table) (swept : List Int64)
    (names : Int64 → List String) (seconds : Int64) : List String :=
  if seconds ∈ swept then returned width now table (Key.bucket seconds) (names seconds)
  else names seconds

/-- What sweeping buckets leads to: each of them is filled anew with the names
that go back, the keys whose expiry has come are removed if one of them lists
them, and other buckets stay as they are. -/
structure Clears (table : Table) (steps : Nat) (names : Int64 → List String) (now : Instant)
    (width : BucketWidth) (swept : List Int64) (after : Table) : Prop where
  consistent : Consistent after steps (sweptNames width now table swept names)
  removes : Removes table (fun key => (∃ seconds ∈ swept, key ∈ names seconds) ∧
    hasCome now (table.expiryOf key) = true) after
  filled : ∀ seconds ∈ swept, Filled after (Key.bucket seconds)
    (returned width now table (Key.bucket seconds) (names seconds))
  others : ∀ seconds, seconds ∉ swept → ∀ physical, Key.Owns (Key.bucket seconds) physical →
    after.get? physical = table.get? physical

namespace Clears

variable {between after : Table} {seconds : Int64} {swept : List Int64}

theorem nil (h : Consistent table steps names) : Clears table steps names now width [] table := by
  refine ⟨?_, .refl table ?_, fun _ hmem => (by cases hmem), fun _ _ _ _ => rfl⟩
  · have hsame : sweptNames width now table [] names = names := by
      funext seconds
      simp [sweptNames]
    rwa [hsame]
  · rintro key ⟨⟨_, hmem, _⟩, _⟩
    cases hmem

/-- A bucket is swept, and then others. -/
theorem cons (h : Consistent table steps names) (hfresh : seconds ∉ swept)
    (hfirst : Clears table steps names now width [seconds] between)
    (hrest : Clears between steps (sweptNames width now table [seconds] names) now width swept
      after) :
    Clears table steps names now width (seconds :: swept) after := by
  have hgone : ∀ key, (∃ other ∈ [seconds], key ∈ names other) ∧
      hasCome now (table.expiryOf key) = true → hasCome now (table.expiryOf key) = true :=
    fun _ hkey => hkey.2
  have hreturned : ∀ other, returned width now between (Key.bucket other) (names other) =
      returned width now table (Key.bucket other) (names other) := by
    intro other
    apply List.filter_congr
    intro name hname
    exact (hfirst.removes.leaves (h.listed other name hname).1).goesBack_eq (hgone name) width _
  have hothers : ∀ other ∈ swept, sweptNames width now table [seconds] names other =
      names other := by
    intro other hother
    rw [sweptNames, if_neg]
    rintro hmem
    rw [List.mem_singleton.mp hmem] at hother
    exact hfresh hother
  refine ⟨?_, (hfirst.removes.trans hrest.removes).congr fun key hkey => ?_, ?_, ?_⟩
  · have hnames : sweptNames width now between swept (sweptNames width now table [seconds] names) =
        sweptNames width now table (seconds :: swept) names := by
      funext other
      by_cases hother : other ∈ swept
      · rw [sweptNames, if_pos hother, hothers other hother, hreturned, sweptNames,
          if_pos (List.mem_cons_of_mem _ hother)]
      · simp [sweptNames, hother]
    rw [← hnames]
    exact hrest.consistent
  · have hcome := (hfirst.removes.leaves hkey).or_hasCome (hgone key)
    constructor
    · rintro (⟨⟨other, hother, hmem⟩, hcome'⟩ | ⟨⟨other, hother, hmem⟩, hcome'⟩)
      · rw [List.mem_singleton.mp hother] at hmem
        exact ⟨⟨seconds, List.mem_cons_self, hmem⟩, hcome'⟩
      · rw [hothers other hother] at hmem
        exact ⟨⟨other, List.mem_cons_of_mem _ hother, hmem⟩, hcome.mp (Or.inr hcome')⟩
    · rintro ⟨⟨other, hother, hmem⟩, hcome'⟩
      rcases List.mem_cons.mp hother with rfl | hother
      · exact Or.inl ⟨⟨other, List.mem_singleton_self other, hmem⟩, hcome'⟩
      · refine (hcome.mpr hcome').imp id fun hstill => ⟨⟨other, hother, ?_⟩, hstill⟩
        rwa [hothers other hother]
  · intro other hother
    by_cases hlater : other ∈ swept
    · have hfilled := hrest.filled other hlater
      rwa [hothers other hlater, hreturned] at hfilled
    · have hsame := (List.mem_cons.mp hother).resolve_right hlater
      subst hsame
      exact (hfirst.filled other (List.mem_singleton_self other)).congr (hrest.others other hlater)
  · intro other hother physical howns
    rw [List.mem_cons, not_or] at hother
    rw [hrest.others other hother.2 physical howns]
    exact hfirst.others other (fun hmem => hother.1 (List.mem_singleton.mp hmem)) physical howns

end Clears

/-- A bucket is emptied, its names are settled, and those that are still to come
go back. -/
theorem ends_sweepBucket (h : Consistent table steps names) (seconds : Int64)
    (hsteps : steps < 9223372036854775808) :
    Ends table (sweepBucket width now (Key.bucket seconds)) fun outcome after =>
      ∃ report, outcome = .ok report ∧ report.deleted + after.population = table.population ∧
        Clears table steps names now width [seconds] after := by
  have hcount : (names seconds).length ≤ steps := by
    rcases h.bucket seconds with ⟨_, hnil⟩ | ⟨_, _, _, _, hcount, _⟩
    · rw [hnil]
      exact Nat.zero_le _
    · exact hcount
  refine .bind ((ends_drain h seconds).confined (Deque.confined_takeAll _)) ?_ ?_
  · rintro e between ⟨⟨hok, _⟩, _⟩
    cases hok
  rintro taken between ⟨⟨htaken, hvacant, hconsistent, hremoves⟩, hagree⟩
  cases htaken
  have hself : Function.update names seconds [] seconds = [] :=
    Function.update_self seconds [] names
  have hsettled := @ends_settleEntries between steps (Function.update names seconds []) now width
    seconds (names seconds) hconsistent (by rw [hself]; exact listed_of_vacant hvacant _)
    (by rw [hself]; exact filled_of_vacant hvacant) (h.listed seconds)
    (by rw [hself]; simpa using hcount) hsteps
  have hexpiry : ∀ name, Key.ColonFree name → between.expiryOf name = table.expiryOf name :=
    fun name hname => hremoves.expiryOf_kept hname id
  refine .bind_answer hsettled ?_
  rintro report after ⟨hdeleted, hreturns⟩
  have hreturned : returned width now between (Key.bucket seconds) (names seconds)
      = returned width now table (Key.bucket seconds) (names seconds) := by
    apply List.filter_congr
    intro name hname
    rw [hexpiry name (h.listed seconds name hname).1]
  have hafter := hreturns.consistent
  have hfilled := hreturns.filled
  rw [hself, List.nil_append, hreturned] at hafter hfilled
  rw [Function.update_idem] at hafter
  have hnames : sweptNames width now table [seconds] names = Function.update names seconds
      (returned width now table (Key.bucket seconds) (names seconds)) := by
    funext other
    by_cases hsame : other = seconds
    · subst hsame
      simp [sweptNames]
    · simp [sweptNames, hsame]
  refine .pure ⟨_, rfl, ?_, ?_, (hremoves.trans hreturns.removes).congr fun key hkey => ?_, ?_, ?_⟩
  · rw [← hagree.population_bucket, ← hdeleted, SweepReport.add, Nat.add_zero]
  · rwa [hnames]
  · rw [hexpiry key hkey]
    simp
  · intro other hother
    rwa [List.mem_singleton.mp hother]
  · intro other hother physical howns
    have hne : other ≠ seconds := fun heq => hother (List.mem_singleton.mpr heq)
    exact (hreturns.others other hne physical howns).trans (hagree.other (.bucket seconds)
      (.bucket other) (fun heq => hne (Key.bucket_injective heq)) physical howns)

/-- Several buckets are swept one after the other. -/
theorem ends_sweepBuckets {swept : List Int64} (h : Consistent table steps names)
    (hnodup : swept.Nodup) (hsteps : steps < 9223372036854775808) :
    Ends table (sweepBuckets width now (swept.map Key.bucket)) fun outcome after =>
      ∃ report, outcome = .ok report ∧ report.deleted + after.population = table.population ∧
        Clears table steps names now width swept after := by
  induction swept generalizing table names with
  | nil => exact .pure ⟨_, rfl, Nat.zero_add _, .nil h⟩
  | cons seconds swept ih =>
      rcases List.nodup_cons.mp hnodup with ⟨hfresh, hnodup⟩
      refine ends_attempt_bind (ends_sweepBucket h seconds hsteps) ?_ ?_
      · rintro cause between ⟨_, hok, _⟩
        cases hok
      rintro _ between ⟨first, rfl, hdeleted, hfirst⟩
      refine .bind_answer (ih hfirst.consistent hnodup) ?_
      rintro rest after ⟨hdeleted', hrest⟩
      refine .pure ⟨_, rfl, ?_, .cons h hfresh hfirst hrest⟩
      rw [← hdeleted, ← hdeleted', SweepReport.add, Nat.add_assoc]

end StructuredStore.Expiry
