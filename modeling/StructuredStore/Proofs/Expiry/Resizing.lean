import StructuredStore.Proofs.Expiry.Exact
import StructuredStore.Proofs.Expiry.Honoured

/-!
# Sweeps of another width

Entries lie in buckets of the width that their expiries were set with.  A sweep
of another width looks up to a limit of its own, and puts a key that it finds
too early back only if the bucket is the one where it would look for the expiry
itself.  So a key is removed exactly if some sweep after its expiry reaches one
of its entries before an earlier sweep dropped that.

Main results:

- `Caught`: whether some of several sweeps finds a key in time.
- `Shelved.ends_sweeps`: those and no others remove a key.
- `Session.run_swept_by`: so it is for the sweeps of any width after a run of
  another one.
- `Session.run_swept_by_lost`: a wider and a narrower width that lose an expiry.
-/

namespace StructuredStore

open Engine Store

namespace Expiry

/-! ## Reached entries -/

/-- Whether one of the sweeps comes after the expiry and reaches an entry of the
key that no earlier one dropped. -/
def Caught (width : BucketWidth) (instant : Instant) (entries : Int64 → Prop)
    (nows : List Instant) : Prop :=
  ∃ earlier last later, nows = earlier ++ last :: later ∧ instant ≤ last ∧
    ∃ seconds, entries seconds ∧ seconds.toInt ≤ width.ceil last ∧
      (seconds.toInt = width.ceil instant ∨
        ∀ now ∈ earlier, width.ceil now < seconds.toInt)

section Caught

variable {width : BucketWidth} {instant now : Instant} {entries : Int64 → Prop}
  {nows : List Instant}

theorem not_caught_nil : ¬ Caught width instant entries [] := by
  intro ⟨earlier, last, later, hsplit, _⟩
  simp at hsplit

/-- The first sweep catches the key, or leaves some of its entries to the
others. -/
theorem caught_cons : Caught width instant entries (now :: nows) ↔
    (instant ≤ now ∧ ∃ seconds, entries seconds ∧ seconds.toInt ≤ width.ceil now) ∨
      Caught width instant (fun seconds => entries seconds ∧
        (seconds.toInt ≤ width.ceil now → seconds.toInt = width.ceil instant)) nows := by
  constructor
  · intro ⟨earlier, last, later, hsplit, hdue, seconds, hentry, hreach, hkept⟩
    cases earlier with
    | nil =>
        cases hsplit
        exact Or.inl ⟨hdue, seconds, hentry, hreach⟩
    | cons first earlier =>
        cases hsplit
        rw [List.forall_mem_cons] at hkept
        refine Or.inr ⟨earlier, last, later, rfl, hdue, seconds, ⟨hentry, ?_⟩, hreach,
          hkept.imp_right And.right⟩
        omega
  · rintro (⟨hdue, seconds, hentry, hreach⟩ | ⟨earlier, last, later, rfl, hdue, seconds,
      ⟨hentry, hfirst⟩, hreach, hkept⟩)
    · exact ⟨[], now, nows, rfl, hdue, seconds, hentry, hreach, Or.inr (by simp)⟩
    · refine ⟨now :: earlier, last, later, rfl, hdue, seconds, hentry, hreach, ?_⟩
      rw [List.forall_mem_cons]
      by_cases hown : seconds.toInt = width.ceil instant
      · exact Or.inl hown
      · exact Or.inr ⟨by omega, hkept.resolve_left hown⟩

end Caught

variable {table : Table} {width : BucketWidth} {names : Int64 → List String} {key : String}

/-- Whether an entry goes back into its bucket. -/
theorem goesBack_some_iff {instant now : Instant} {seconds : Int64} :
    goesBack width now (Key.bucket seconds) (some instant) = true ↔
      ¬ instant ≤ now ∧ seconds.toInt = width.ceil instant := by
  have hbucket : width.bucket instant = Key.bucket seconds ↔
      seconds.toInt = width.ceil instant := by
    rw [← width.toInt_ceil, Int64.toInt_inj, BucketWidth.bucket]
    exact ⟨fun h => (Key.bucket_injective h).symm, fun h => by rw [h]⟩
  simp [goesBack, hbucket]

/-- What the first of several sweeps leaves of a key is caught by the others, or
not at all. -/
theorem Sweeps.caught_iff {between : Table} {names' : Int64 → List String} {now : Instant}
    (h : Sweeps width now table names (fun seconds => seconds.toInt ≤ width.ceil now) between
      names') (hkey : Plain table key) (nows : List Instant) :
    (((∃ seconds : Int64, seconds.toInt ≤ width.ceil now ∧ key ∈ names seconds) ∧
        hasCome now (table.expiryOf key) = true) ∨
      ∃ instant, between.expiryOf key = some instant ∧
        Caught width instant (fun seconds => key ∈ names' seconds) nows) ↔
    ∃ instant, table.expiryOf key = some instant ∧
      Caught width instant (fun seconds => key ∈ names seconds) (now :: nows) := by
  by_cases hgone : (∃ seconds : Int64, seconds.toInt ≤ width.ceil now ∧ key ∈ names seconds) ∧
      hasCome now (table.expiryOf key) = true
  · obtain ⟨⟨seconds, hreach, hmem⟩, hcome⟩ := hgone
    obtain ⟨instant, hexpiry, hdue⟩ := (Option.any_eq_true _ _).mp hcome
    apply iff_of_true (Or.inl ⟨⟨seconds, hreach, hmem⟩, hcome⟩)
    exact ⟨instant, hexpiry,
      caught_cons.mpr (Or.inl ⟨of_decide_eq_true hdue, seconds, hmem, hreach⟩)⟩
  · have hnot : ∀ instant, table.expiryOf key = some instant → instant ≤ now →
        ∀ seconds, key ∈ names seconds → ¬ seconds.toInt ≤ width.ceil now := by
      intro instant hexpiry hdue seconds hmem hreach
      exact hgone ⟨⟨seconds, hreach, hmem⟩, by simp [hasCome, hexpiry, hdue]⟩
    rw [or_iff_right hgone, (h.leaves key hkey).expiryOf_same hgone]
    refine exists_congr fun instant => and_congr_right fun hexpiry => ?_
    have hleft : (fun seconds => key ∈ names' seconds) = fun seconds => key ∈ names seconds ∧
        (seconds.toInt ≤ width.ceil now → seconds.toInt = width.ceil instant) := by
      funext seconds
      rw [h.listed key hkey, hexpiry, goesBack_some_iff]
      refine propext (and_congr_right fun hmem => imp_congr_right fun hreach => ?_)
      exact and_iff_right fun hdue => hnot instant hexpiry hdue seconds hmem hreach
    rw [hleft, caught_cons, or_iff_right]
    intro hcaught
    obtain ⟨hdue, seconds, hmem, hreach⟩ := hcaught
    exact hnot instant hexpiry hdue seconds hmem hreach

/-- The list at a bucket has exactly the listed names among its items. -/
theorem Listed.lists_iff {bucket name : String} {steps : Nat} {listed : List String}
    (h : Listed table bucket steps listed) : table.Lists bucket name ↔ name ∈ listed := by
  refine ⟨fun hlists => ?_, h.lists⟩
  obtain ⟨handle, hframe, index, hlow, hhigh, item, hget, hdecode⟩ := hlists
  rcases h with ⟨hvacant, _⟩ | ⟨found, items, hstored, hholding, _⟩
  · exact absurd (hvacant _ (.self bucket)) hframe.get?_ne_none
  · cases hframe.unique hstored.frame
    have hindex : index.toInt = handle.head.toInt + (index.toInt - handle.head.toInt).toNat := by
      omega
    have hitem := (hstored.get?_place hindex).symm.trans hget
    have hentry := hholding.getElem? (index.toInt - handle.head.toInt).toNat
    rw [hitem, Option.map_some, hdecode, List.getElem?_map] at hentry
    obtain ⟨_, hplace, hvalue⟩ := Option.map_eq_some_iff.mp hentry.symm
    obtain ⟨other, hother, rfl⟩ := Option.map_eq_some_iff.mp hplace
    cases hvalue
    exact List.mem_of_getElem? hother

end Expiry

open Expiry

/-- Sweeps succeed, and remove the plain keys that one of them catches. -/
theorem Shelved.ends_sweeps {table : Table} {names : Int64 → List String}
    (h : Shelved table names) (width : BucketWidth) (nows : List Instant) :
    Ends table (sweeps width nows) fun outcome after =>
      (∃ reports, outcome = .ok reports) ∧ ∀ key, Plain table key →
        Leaves table key (∃ instant, table.expiryOf key = some instant ∧
          Caught width instant (fun seconds => key ∈ names seconds) nows) after := by
  induction nows generalizing table names with
  | nil => exact .pure ⟨⟨_, rfl⟩, fun key _ => .refl table key (by simp [not_caught_nil])⟩
  | cons now nows ih =>
      apply Ends.bind_ok (h.ends_sweep width now)
      intro report between ⟨names', hsweeps⟩
      apply Ends.bind_ok (ih hsweeps.shelved)
      intro reports after hafter
      refine .pure ⟨⟨_, rfl⟩, fun key hkey => ?_⟩
      have hfirst := hsweeps.leaves key hkey
      exact (hfirst.trans (hafter key (hfirst.plain hkey))).congr (hsweeps.caught_iff hkey nows)

/-! ## Runs -/

namespace Session

/-- After a run of any length on keys without colon, sweeps of any width succeed,
and remove exactly the keys that one of them catches, by the buckets that list
them.  The bucket of the width of the run is one of these, unless a name or a
bucket outgrew its length field or an expiry lay in a leap second. -/
theorem run_swept_by (session : Session) (hstart : session.engine = .ofTable .empty)
    (steps : List Step)
    (hkeys : ∀ op ∈ operations steps, ∀ key, op.key? = some key → Key.ColonFree key)
    (other : BucketWidth) :
    ∃ table, (session.run steps).2.engine = .ofTable table ∧
      ((∀ op ∈ operations steps, ∀ key, op.key? = some key →
          (Utf8.encode key).length < 2 ^ 32) →
        (∀ op ∈ operations steps, ∀ key instant, op = .expireAt key instant →
          instant.IsRegular) →
        (operations steps).length < 2 ^ 63 → Indexed session.width table) ∧
      ∀ nows, ∃ reports after,
        (sweeps other nows).run (.ofTable table) = (.ok reports, .ofTable after) ∧
        ∀ key value instant, Key.ColonFree key →
          table.HasFrame (Key.ofText key) ⟨value, some instant⟩ →
          (after.get? (Key.ofText key) = none ↔
            Caught other instant (fun seconds => table.Lists (Key.bucket seconds) key) nows) := by
  obtain ⟨table, hafter, names, hshelved⟩ := session.run_shelved hstart steps
    fun op hop key hkey => (hkeys op hop key hkey).isReserved
  refine ⟨table, hafter, fun hlengths hinstants hcount => ?_, fun nows => ?_⟩
  · obtain ⟨_, hsame, _, hconsistent, hcovers⟩ := session.run_covers hstart steps
      (fun op hop key hkey => ⟨hkeys op hop key hkey, hlengths op hop key hkey⟩) hinstants hcount
    cases hafter.symm.trans hsame
    exact hcovers.indexed hconsistent
  · obtain ⟨_, after, hrun, ⟨reports, rfl⟩, hleaves⟩ := hshelved.ends_sweeps other nows
    refine ⟨reports, after, hrun, fun key value instant hkey hframe => ?_⟩
    have hleft := hleaves key ⟨hkey, Or.inr ⟨_, hframe⟩⟩
    have hlists : (fun seconds => table.Lists (Key.bucket seconds) key) =
        fun seconds => key ∈ names seconds := by
      funext seconds
      obtain ⟨_, hshelf⟩ := hshelved.shelf seconds
      exact propext hshelf.lists_iff
    have hcaught : (∃ expiry, table.expiryOf key = some expiry ∧
          Caught other expiry (fun seconds => key ∈ names seconds) nows) ↔
        Caught other instant (fun seconds => key ∈ names seconds) nows := by
      simp [hframe.expiryOf_eq]
    rw [hlists, ← hcaught]
    refine ⟨fun habsent => ?_, hleft.absent⟩
    by_contra hnot
    rw [hleft.same hnot] at habsent
    exact hframe.get?_ne_none habsent

/-- A sweep of a wider width comes after the expiry, and reaches the entry. -/
theorem run_swept_by_wider :
    let session : Session := ⟨.ofTable .empty, ⟨0⟩, ⟨60, by decide, by decide⟩, .none⟩
    let instant : Instant := .ofInt64 90000000000
    let steps : List Step := [.operation (.set "a" .null), .operation (.expireAt "a" instant)]
    let wider : BucketWidth := ⟨3600, by decide, by decide⟩
    (∀ op ∈ operations steps, ∀ key, op.key? = some key → Key.ColonFree key) ∧
      ∃ table, (session.run steps).2.engine = .ofTable table ∧
        table.HasFrame (Key.ofText "a") ⟨.null, some instant⟩ ∧
        table.Lists (session.width.bucket instant) "a" ∧
        ∃ reports after, (sweeps wider [.ofInt64 100000000000]).run (.ofTable table) =
          (.ok reports, .ofTable after) ∧ after.get? (Key.ofText "a") = none := by
  intro session instant steps wider
  have hall : ∀ op ∈ operations steps, ∀ key, op.key? = some key →
      Key.ColonFree key ∧ (Utf8.encode key).length < 2 ^ 32 := by
    intro op hop key hkey
    simp only [operations, steps, List.filterMap_cons, Step.operation?, List.filterMap_nil,
      List.mem_cons, List.not_mem_nil, or_false] at hop
    rcases hop with rfl | rfl <;> cases hkey <;> decide
  have hkeys : ∀ op ∈ operations steps, ∀ key, op.key? = some key → Key.ColonFree key :=
    fun op hop key hkey => (hall op hop key hkey).1
  have hinstants : ∀ op ∈ operations steps, ∀ key instant, op = .expireAt key instant →
      instant.IsRegular := by
    intro op hop key other heq
    subst heq
    simp only [operations, steps, List.filterMap_cons, Step.operation?, List.filterMap_nil,
      List.mem_cons, reduceCtorEq, Operation.expireAt.injEq, List.not_mem_nil, or_false,
      false_or] at hop
    rw [hop.2]
    decide
  obtain ⟨table, hafter, hindexed, hsweeps⟩ := run_swept_by session rfl steps hkeys wider
  have hframe : (session.run steps).2.engine.table.HasFrame (Key.ofText "a")
      ⟨.null, some instant⟩ := by
    decide +kernel
  rw [hafter] at hframe
  have hlists := hindexed (fun op hop key hkey => (hall op hop key hkey).2) hinstants (by decide)
    "a" (by decide) instant hframe.expiryOf_eq
  obtain ⟨reports, after, hrun, hgone⟩ := hsweeps [.ofInt64 100000000000]
  refine ⟨hkeys, table, hafter, hframe, hlists, reports, after, hrun, ?_⟩
  apply (hgone "a" _ _ (by decide) hframe).mpr
  exact ⟨[], .ofInt64 100000000000, [], rfl, by decide, _, hlists, by decide, Or.inr (by simp)⟩

/-- An early sweep of a wider width drops the entry, which lies in none of its
own buckets, and a sweep of a narrower width stops in front of it: the key stays
behind its expiry. -/
theorem run_swept_by_lost :
    let session (width : BucketWidth) : Session := ⟨.ofTable .empty, ⟨0⟩, width, .none⟩
    let minute : BucketWidth := ⟨60, by decide, by decide⟩
    let hour : BucketWidth := ⟨3600, by decide, by decide⟩
    let steps : List Step := [.operation (.set "a" .null),
      .operation (.expireAt "a" (.ofInt64 90000000000))]
    ((do
      let reports ← sweeps hour [.ofInt64 30000000000, .ofInt64 100000000000]
      return (reports, ← Expiry.get "a")).run ((session minute).run steps).2.engine).1 =
        .ok ([⟨1, 0, 1, 0⟩, .zero], some (.ofInt64 90000000000)) ∧
      ((do
        let reports ← sweeps minute [.ofInt64 100000000000]
        return (reports, ← Expiry.get "a")).run ((session hour).run steps).2.engine).1 =
          .ok ([.zero], some (.ofInt64 90000000000)) := by
  decide +kernel

end Session
end StructuredStore
