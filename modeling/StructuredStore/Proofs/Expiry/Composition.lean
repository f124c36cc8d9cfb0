import StructuredStore.Proofs.Expiry.Exact

/-!
# Sweeps compose

A sweep drains every bucket up to the present one and builds it anew from the
names that go back, so what it leaves is settled row by row: keys whose expiry
has come are gone, drained buckets have the indices of a list that starts anew,
and everything else is as it was.  What an earlier sweep removes, drops or puts
back, a later one would have removed, dropped or put back as well, so an earlier
sweep in front of a later one makes no difference to what is left.

Main results:

- `Swept`, `Consistent.ends_swept`: every row that a sweep leaves.
- `Swept.unique`: two sweeps at one instant leave the same table.
- `Swept.trans`: an earlier sweep and a later one leave what the later one does.
- `Session.run_sweeps_compose`: so it is after every run from an empty store.
-/

namespace StructuredStore

open Engine Store Expiry

namespace Expiry

variable {table between after : Table} {steps : Nat} {names : Int64 → List String}
  {width : BucketWidth} {earlier later now : Instant} {expiry : Option Instant}

/-! ## Later sweeps -/

/-- What has come stays so. -/
theorem hasCome_mono (hle : earlier ≤ later) (h : hasCome earlier expiry = true) :
    hasCome later expiry = true := by
  obtain ⟨instant, hexpiry, hcome⟩ := hasCome_iff.mp h
  exact hasCome_iff.mpr ⟨instant, hexpiry, Instant.le_trans hcome hle⟩

/-- What goes back into a bucket in a later sweep does so in an earlier one. -/
theorem goesBack_mono (hle : earlier ≤ later) {bucket : String}
    (h : goesBack width later bucket expiry = true) :
    goesBack width earlier bucket expiry = true := by
  cases expiry with
  | none => cases h
  | some instant =>
      simp only [goesBack, Option.any_some, Bool.and_eq_true, Bool.not_eq_true',
        decide_eq_false_iff_not] at h ⊢
      exact ⟨fun hcome => h.1 (Instant.le_trans hcome hle), h.2⟩

/-! ## What a sweep leaves -/

/-- The names that all buckets list after a sweep. -/
def namesAfter (width : BucketWidth) (now : Instant) (table : Table)
    (names : Int64 → List String) (seconds : Int64) : List String :=
  if seconds.toInt ≤ width.ceil now then
    returned width now table (Key.bucket seconds) (names seconds)
  else names seconds

/-- What a sweep leaves, row by row: keys whose expiry has come are gone, buckets
up to the present one are filled anew, and other ones stay as they are. -/
structure Swept (table : Table) (steps : Nat) (names : Int64 → List String)
    (width : BucketWidth) (now : Instant) (after : Table) : Prop where
  consistent : Consistent after steps (namesAfter width now table names)
  covers : Covers width (namesAfter width now table names) after
  removes : Removes table (fun key => hasCome now (table.expiryOf key) = true) after
  filled : ∀ seconds : Int64, seconds.toInt ≤ width.ceil now →
    Filled after (Key.bucket seconds) (namesAfter width now table names seconds)
  others : ∀ seconds : Int64, width.ceil now < seconds.toInt →
    ∀ physical, Key.Owns (Key.bucket seconds) physical →
      after.get? physical = table.get? physical

end Expiry

/-- A sweep succeeds, reports how many keys it removed, and leaves nothing
unsettled. -/
theorem Consistent.ends_swept {table : Table} {steps : Nat} {names : Int64 → List String}
    {width : BucketWidth} (h : Consistent table steps names)
    (hsteps : steps < 9223372036854775808) (hcovers : Covers width names table) (now : Instant) :
    Ends table (sweep width now) fun outcome after =>
      ∃ report, outcome = .ok report ∧ report.deleted + after.population = table.population ∧
        Swept table steps names width now after := by
  apply (h.ends_sweep_clears hsteps width now).conseq
  rintro outcome after ⟨report, hok, hdeleted, swept, hdue, hclears⟩
  have hlimit := width.toInt_ceil now
  have hreached : ∀ seconds ∈ swept, seconds.toInt ≤ width.ceil now :=
    fun seconds hmem => (hdue.toInt_le hmem).trans_eq hlimit
  have hvacant : ∀ seconds : Int64, seconds.toInt ≤ width.ceil now → seconds ∉ swept →
      table.Vacant (Key.bucket seconds) ∧ names seconds = [] := fun seconds hle hmem =>
    (h.bucket seconds).vacant (hdue.absent (hle.trans_eq hlimit.symm) hmem)
  have hnames : sweptNames width now table swept names = namesAfter width now table names := by
    funext seconds
    by_cases hmem : seconds ∈ swept
    · rw [sweptNames, if_pos hmem, namesAfter, if_pos (hreached seconds hmem)]
    · rw [sweptNames, if_neg hmem, namesAfter]
      split
      · rename_i hle
        rw [(hvacant seconds hle hmem).2]
        rfl
      · rfl
  have hswept : ∀ seconds, names seconds ≠ [] →
      seconds.toInt ≤ (Int64.ofInt (width.ceil now)).toInt → seconds ∈ swept := by
    intro seconds hlisted hle
    by_contra hmem
    exact hlisted (hvacant seconds (hle.trans_eq hlimit) hmem).2
  refine ⟨report, hok, hdeleted, hnames ▸ hclears.consistent,
    hnames ▸ hcovers.sweptNames hclears.removes, hclears.removes.congr fun key hkey => ?_,
    fun seconds hle => ?_, fun seconds hlt => ?_⟩
  · refine and_iff_right_of_imp fun hcome => ?_
    obtain ⟨instant, hexpiry, hle⟩ := hasCome_iff.mp hcome
    exact hcovers.mem_swept hswept hkey hexpiry hle
  · rw [namesAfter, if_pos hle]
    by_cases hmem : seconds ∈ swept
    · exact hclears.filled seconds hmem
    · obtain ⟨hvacant, hnil⟩ := hvacant seconds hle hmem
      rw [hnil]
      exact (filled_of_vacant hvacant).congr (hclears.others seconds hmem)
  · apply hclears.others
    intro hmem
    have hle := hreached seconds hmem
    omega

namespace Expiry.Swept

variable {table between after other : Table} {steps : Nat} {names : Int64 → List String}
  {width : BucketWidth} {earlier later now : Instant}

/-- A sweep leaves one table. -/
theorem unique (h : Swept table steps names width now after)
    (hother : Swept table steps names width now other) : after = other := by
  apply Table.ext_get?
  intro physical
  by_cases howned : ∃ key, Key.Logical key ∧ Key.Owns key physical
  · obtain ⟨key, hfree | ⟨seconds, rfl⟩, howns⟩ := howned
    · exact hother.removes.get?_eq h.removes hfree howns
    · by_cases hle : seconds.toInt ≤ width.ceil now
      · exact (hother.filled seconds hle).get?_eq (h.filled seconds hle) howns
      · have hlt := Int.lt_of_not_ge hle
        rw [h.others seconds hlt physical howns, hother.others seconds hlt physical howns]
  · have hnone : ∀ {left : Table}, Swept table steps names width now left →
        left.get? physical = none := by
      intro left hleft
      by_contra hget
      exact howned (hleft.consistent.owned physical hget)
    rw [hnone h, hnone hother]

/-- What a later sweep puts back does not depend on an earlier one. -/
theorem namesAfter_namesAfter (h : Consistent table steps names) (hle : earlier ≤ later)
    (hfirst : Swept table steps names width earlier between) :
    namesAfter width later between (namesAfter width earlier table names) =
      namesAfter width later table names := by
  funext seconds
  have hsame : ∀ name ∈ names seconds,
      goesBack width later (Key.bucket seconds) (between.expiryOf name) =
        goesBack width later (Key.bucket seconds) (table.expiryOf name) := by
    intro name hname
    exact (hfirst.removes.leaves (h.listed seconds name hname).1).goesBack_eq
      (hasCome_mono hle) width _
  have hceil := width.ceil_le_ceil hle
  by_cases hlate : seconds.toInt ≤ width.ceil later
  · rw [namesAfter, if_pos hlate, namesAfter, namesAfter, if_pos hlate]
    split
    · -- Whatever the later sweep puts back, the earlier one did.
      rw [returned, returned, List.filter_filter]
      apply List.filter_congr
      intro name hname
      rw [hsame name hname, Bool.and_eq_left_iff_imp]
      exact goesBack_mono hle
    · exact List.filter_congr hsame
  · rw [namesAfter, if_neg hlate, namesAfter, if_neg (by omega), namesAfter, if_neg hlate]

/-- An earlier sweep and a later one leave what the later one does. -/
theorem trans (h : Consistent table steps names) (hle : earlier ≤ later)
    (hfirst : Swept table steps names width earlier between)
    (hsecond : Swept between steps (namesAfter width earlier table names) width later after) :
    Swept table steps names width later after := by
  obtain ⟨hconsistent, hcovers, hremoves, hfilled, hothers⟩ := hsecond
  have hceil := width.ceil_le_ceil hle
  rw [hfirst.namesAfter_namesAfter h hle] at hconsistent hcovers hfilled
  refine ⟨hconsistent, hcovers, (hfirst.removes.trans hremoves).congr fun key hkey => ?_, hfilled,
    fun seconds hlt physical howns => ?_⟩
  · exact (hfirst.removes.leaves hkey).or_hasCome (hasCome_mono hle)
  · rw [hothers seconds hlt physical howns]
    exact hfirst.others seconds (by omega) physical howns

end Expiry.Swept

/-- A sweep behind an earlier one leaves what it leaves alone, and the two delete
as many keys. -/
theorem Consistent.exists_sweeps_compose {table : Table} {steps : Nat}
    {names : Int64 → List String} {width : BucketWidth} (h : Consistent table steps names)
    (hsteps : steps < 9223372036854775808) (hcovers : Covers width names table)
    {earlier later : Instant} (hle : earlier ≤ later) :
    ∃ first between second once after,
      (sweep width earlier).run (.ofTable table) = (.ok first, .ofTable between) ∧
      (sweep width later).run (.ofTable between) = (.ok second, .ofTable after) ∧
      (sweep width later).run (.ofTable table) = (.ok once, .ofTable after) ∧
      first.deleted + second.deleted = once.deleted ∧
      once.deleted + after.population = table.population ∧
      Removes table (fun key => ∃ instant, table.expiryOf key = some instant ∧ instant ≤ later)
        after := by
  obtain ⟨_, between, hearlier, first, rfl, hfirst, hbetween⟩ :=
    h.ends_swept hsteps hcovers earlier
  obtain ⟨_, after, hlater, second, rfl, hsecond, hafter⟩ :=
    hbetween.consistent.ends_swept hsteps hbetween.covers later
  obtain ⟨_, alone, hsingle, once, rfl, honce, halone⟩ := h.ends_swept hsteps hcovers later
  have hsame : after = alone := (hbetween.trans h hle hafter).unique halone
  subst hsame
  exact ⟨first, between, second, once, after, hearlier, hlater, hsingle, by omega, honce,
    halone.removes.congr fun _ _ => hasCome_iff⟩

/-! ## Runs -/

namespace Session

/-- After any run from an empty store, an earlier sweep and a later one leave
exactly the rows that the later one leaves alone, and delete together as many
keys: those whose expiry has come by then.  In particular a second sweep at the
same instant changes nothing. -/
theorem run_sweeps_compose (session : Session) (hstart : session.engine = .ofTable .empty)
    (steps : List Step)
    (hkeys : ∀ op ∈ operations steps, ∀ key, op.key? = some key →
      Key.ColonFree key ∧ (Utf8.encode key).length < 2 ^ 32)
    (hinstants : ∀ op ∈ operations steps, ∀ key instant, op = .expireAt key instant →
      instant.IsRegular)
    (hcount : (operations steps).length < 2 ^ 63) :
    ∃ table, (session.run steps).2.engine = .ofTable table ∧
      (∀ earlier later : Instant, earlier ≤ later → ∃ first between second once after,
        (sweep session.width earlier).run (.ofTable table) = (.ok first, .ofTable between) ∧
        (sweep session.width later).run (.ofTable between) = (.ok second, .ofTable after) ∧
        (sweep session.width later).run (.ofTable table) = (.ok once, .ofTable after) ∧
        first.deleted + second.deleted = once.deleted ∧
        once.deleted + after.population = table.population ∧
        Removes table (fun key => ∃ instant, table.expiryOf key = some instant ∧ instant ≤ later)
          after) ∧
      ∀ now, ∃ report again after,
        (sweep session.width now).run (.ofTable table) = (.ok report, .ofTable after) ∧
        (sweep session.width now).run (.ofTable after) = (.ok again, .ofTable after) ∧
        again.deleted = 0 := by
  obtain ⟨table, hafter, names, hconsistent, hcovers⟩ :=
    session.run_covers hstart steps hkeys hinstants hcount
  refine ⟨table, hafter, fun earlier later hle =>
    hconsistent.exists_sweeps_compose (by omega) hcovers hle, fun now => ?_⟩
  obtain ⟨first, between, second, once, after, hfirst, hsecond, honce, hdeleted, _⟩ :=
    hconsistent.exists_sweeps_compose (by omega) hcovers (Instant.le_refl now)
  cases hfirst.symm.trans honce
  exact ⟨first, second, between, honce, hsecond, by omega⟩

/-- The bucket that is due lists a key that expires later by now, a key twice and
a key once.  The earlier sweep drops the first one, puts the second one back
twice and removes the third one; the later one finds a bucket that was built
anew. -/
theorem run_sweeps_compose_duplicate :
    let session : Session := ⟨.ofTable .empty, ⟨0⟩, ⟨60, by decide, by decide⟩, .none⟩
    let earlier : Instant := .ofInt64 62000000000
    let later : Instant := .ofInt64 80000000000
    let steps : List Step := [.operation (.set "a" .null), .operation (.set "b" .null),
      .operation (.set "c" .null), .operation (.expireAt "a" (.ofInt64 65000000000)),
      .operation (.expireAt "b" (.ofInt64 70000000000)),
      .operation (.expireAt "a" (.ofInt64 200000000000)),
      .operation (.expireAt "b" (.ofInt64 70000000000)),
      .operation (.expireAt "c" (.ofInt64 61000000000))]
    (∀ op ∈ operations steps, ∀ key, op.key? = some key →
        Key.ColonFree key ∧ (Utf8.encode key).length < 2 ^ 32) ∧
      (∀ op ∈ operations steps, ∀ key instant, op = .expireAt key instant → instant.IsRegular) ∧
      (operations steps).length < 2 ^ 63 ∧ earlier ≤ later ∧
      ∃ table between after, (session.run steps).2.engine = .ofTable table ∧
        (sweep session.width earlier).run (.ofTable table) = (.ok ⟨1, 1, 1, 2⟩, .ofTable between) ∧
        (sweep session.width later).run (.ofTable between) = (.ok ⟨1, 1, 1, 0⟩, .ofTable after) ∧
        (sweep session.width later).run (.ofTable table) = (.ok ⟨1, 2, 2, 0⟩, .ofTable after) := by
  intro session earlier later steps
  have hkeys : ∀ op ∈ operations steps, ∀ key, op.key? = some key →
      Key.ColonFree key ∧ (Utf8.encode key).length < 2 ^ 32 := by
    show ∀ op ∈ operations steps, ∀ key ∈ op.key?,
      Key.ColonFree key ∧ (Utf8.encode key).length < 2 ^ 32
    decide +kernel
  have hinstants : ∀ op ∈ operations steps, ∀ key instant, op = .expireAt key instant →
      instant.IsRegular := by
    intro op hop key instant heq
    subst heq
    simp only [operations, steps, List.filterMap_cons, Step.operation?, List.filterMap_nil,
      List.mem_cons, reduceCtorEq, Operation.expireAt.injEq, List.not_mem_nil, or_false,
      false_or] at hop
    rcases hop with ⟨_, rfl⟩ | ⟨_, rfl⟩ | ⟨_, rfl⟩ | ⟨_, rfl⟩ | ⟨_, rfl⟩ <;> decide
  have hcount : (operations steps).length < 2 ^ 63 := by decide
  have hle : earlier ≤ later := by decide
  obtain ⟨table, hafter, hcompose, _⟩ :=
    run_sweeps_compose session rfl steps hkeys hinstants hcount
  obtain ⟨first, between, second, once, after, hfirst, hsecond, honce, _⟩ :=
    hcompose earlier later hle
  have hreports :
      let swept := (sweep session.width earlier).run (session.run steps).2.engine
      swept.1 = .ok ⟨1, 1, 1, 2⟩ ∧
        ((sweep session.width later).run swept.2).1 = .ok ⟨1, 1, 1, 0⟩ ∧
        ((sweep session.width later).run (session.run steps).2.engine).1 = .ok ⟨1, 2, 2, 0⟩ := by
    decide +kernel
  simp only [hafter, hfirst, hsecond, honce] at hreports
  rw [hreports.1] at hfirst
  rw [hreports.2.1] at hsecond
  rw [hreports.2.2] at honce
  exact ⟨hkeys, hinstants, hcount, hle, table, between, after, hafter, hfirst, hsecond, honce⟩

end Session
end StructuredStore
