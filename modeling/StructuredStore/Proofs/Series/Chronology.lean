import Mathlib.Data.Finmap
import StructuredStore.Proofs.Store.Refinement
import StructuredStore.Proofs.Time.Order

/-!
# Series are chronological maps

A series, worked on by any run of operations, answers what a finite map from
instants to values answers.  The selector of a point is its count of nanoseconds,
so that a scan meets the points in the order of time, before and after 1970, and
may stop at the first one behind the upper bound.

Main results:

- `Call.answer`: what a finite map answers and becomes.
- `visitRows_collectBetween`: a scan that stops early misses nothing.
- `refines`: the operations on a series do what the finite map does.
- `run_calls_eq_chronicle`: so they do over whole runs.
-/

namespace StructuredStore.Series

open Engine Store
open Operation (ends_silent)
open Deque (Survives Alone)

/-- A finite map from instants to values. -/
abbrev Chronicle := Finmap fun _ : Instant => Value

/-! ## Operations on one series -/

/-- An operation on a series. -/
inductive Call where
  | create
  | add (instant : Instant) (value : Value)
  | get (instant : Instant)
  | remove (instant : Instant)
  | range (start stop : Instant)
  | latest
  | size
  | delete

/-- All points of a finite map, in the order of time. -/
def listing (points : Chronicle) : List (Instant × Value) :=
  (Instant.inOrder points.keys).filterMap fun instant =>
    (points.lookup instant).map fun value => (instant, value)

/-- The points from one instant to another, in the order of time. -/
def between (points : Chronicle) (start stop : Instant) : List (Instant × Value) :=
  (listing points).filter fun point => start ≤ point.1 ∧ point.1 ≤ stop

/-- The number of points of a finite map, as a reply. -/
def counted (points : Chronicle) : Except StoreError Reply :=
  .ok (.count (UInt64.ofNat points.keys.card))

namespace Call

/-- The operation of the store on the series at a key. -/
def operation (key : String) : Call → Operation
  | create => .seriesCreate key
  | add instant value => .seriesAdd key instant value
  | get instant => .seriesGet key instant
  | remove instant => .seriesRemove key instant
  | range start stop => .seriesRange key start stop
  | latest => .seriesLatest key
  | size => .seriesSize key
  | delete => .seriesDelete key

/-- The value that an operation puts into the series, if any. -/
def value? : Call → Option Value
  | add _ value => some value
  | _ => none

/-- The instants that an operation is asked about. -/
def instants : Call → List Instant
  | add instant _ | get instant | remove instant => [instant]
  | range start stop => [start, stop]
  | _ => []

/-- What an operation answers on a finite map, and the map after it; there may be
none.  An instant whose count of nanoseconds does not fit 64 bits overflows. -/
def answer : Call → Option Chronicle → Except StoreError Reply × Option Chronicle
  | create, none => (.ok .done, some ∅)
  | create, some points => (.error .alreadyExists, some points)
  | _, none => (.error .notFound, none)
  | add instant value, some points =>
      if FitsInt64 instant.nanoseconds then
        (counted (points.insert instant value), some (points.insert instant value))
      else (.error .overflow, some points)
  | get instant, some points =>
      (if FitsInt64 instant.nanoseconds then
        match points.lookup instant with
        | none => .error .notFound
        | some value => .ok (.value value)
      else .error .overflow, some points)
  | remove instant, some points =>
      if FitsInt64 instant.nanoseconds then
        (counted (points.erase instant), some (points.erase instant))
      else (.error .overflow, some points)
  | range start stop, some points =>
      (if stop < start then .ok (.points [])
      else if FitsInt64 start.nanoseconds ∧ FitsInt64 stop.nanoseconds then
        .ok (.points (between points start stop))
      else .error .overflow, some points)
  | latest, some points => (.ok (.point (listing points).getLast?), some points)
  | size, some points => (counted points, some points)
  | delete, some _ => (.ok .done, none)

/-- Whether a call fails, or writes no value and leaves the finite map as it is. -/
def Idle (call : Call) (state : Option Chronicle) : Prop :=
  (∃ e, (call.answer state).1 = .error e) ∨ call.value? = none ∧ (call.answer state).2 = state

end Call

/-! ## Finite maps of instants -/

/-- The listing is in strictly increasing order of time. -/
theorem pairwise_listing (points : Chronicle) :
    (listing points).Pairwise fun a b => a.1 < b.1 := by
  rw [listing, List.pairwise_filterMap]
  apply (Instant.pairwise_inOrder points.keys).imp
  intro a b hlt first hfirst second hsecond
  obtain ⟨_, _, rfl⟩ := Option.map_eq_some_iff.mp hfirst
  obtain ⟨_, _, rfl⟩ := Option.map_eq_some_iff.mp hsecond
  exact hlt

/-- The listing has exactly the points of the finite map. -/
theorem mem_listing_iff {points : Chronicle} {instant : Instant} {value : Value} :
    (instant, value) ∈ listing points ↔ points.lookup instant = some value := by
  rw [listing, List.mem_filterMap]
  constructor
  · rintro ⟨other, _, hentry⟩
    obtain ⟨_, hlookup, heq⟩ := Option.map_eq_some_iff.mp hentry
    cases heq
    exact hlookup
  · intro hlookup
    refine ⟨instant, ?_, by rw [hlookup]; rfl⟩
    rw [Instant.mem_inOrder, Finmap.mem_keys]
    exact Finmap.mem_of_lookup_eq_some hlookup

/-- The last point of the listing is the one with the greatest instant. -/
theorem getLast?_listing_eq_some {points : Chronicle} {newest : Instant × Value}
    (h : (listing points).getLast? = some newest) :
    points.lookup newest.1 = some newest.2 ∧
      ∀ instant ∈ points, instant = newest.1 ∨ instant < newest.1 := by
  obtain ⟨older, holder⟩ := List.getLast?_eq_some_iff.mp h
  have hsorted := pairwise_listing points
  have hnewest : newest ∈ listing points := List.mem_of_getLast? h
  refine ⟨mem_listing_iff.mp hnewest, fun instant hinstant => ?_⟩
  obtain ⟨value, hvalue⟩ := Finmap.mem_iff.mp hinstant
  have hmem := mem_listing_iff.mpr hvalue
  rw [holder] at hmem hsorted
  rcases List.mem_append.mp hmem with hearlier | hlast
  · exact Or.inr ((List.pairwise_append.mp hsorted).2.2 _ hearlier newest (List.mem_singleton_self _))
  · exact Or.inl (congrArg Prod.fst (List.mem_singleton.mp hlast))

/-- Only a finite map without points has no last one. -/
theorem eq_empty_of_getLast?_listing {points : Chronicle}
    (h : (listing points).getLast? = none) : points = ∅ := by
  rw [List.getLast?_eq_none_iff] at h
  apply Finmap.ext_lookup
  intro instant
  rw [Finmap.lookup_empty, Option.eq_none_iff_forall_ne_some]
  intro value hvalue
  have hmem := mem_listing_iff.mpr hvalue
  rw [h] at hmem
  exact List.not_mem_nil hmem

/-- The points between two instants are in the order of time too. -/
theorem pairwise_between (points : Chronicle) (start stop : Instant) :
    (between points start stop).Pairwise fun a b => a.1 < b.1 :=
  (pairwise_listing points).filter _

/-- The points between two instants are those of the chronicle that lie there. -/
theorem mem_between_iff {points : Chronicle} {start stop instant : Instant} {value : Value} :
    (instant, value) ∈ between points start stop ↔
      points.lookup instant = some value ∧ start ≤ instant ∧ instant ≤ stop := by
  rw [between, List.mem_filter, mem_listing_iff, decide_eq_true_iff]

/-! ## Points as items -/

/-- The key of the point at an instant, given by its count of nanoseconds. -/
def pointAt (key : String) (count : Int64) : Bytes :=
  Key.item key .series (Key.indexSelector count)

/-- Points are placed under the marker of series, each at its own key. -/
theorem places_pointAt (key : String) : Places key .series (pointAt key) :=
  ⟨fun _ => List.prefix_append _ _,
    fun heq => Key.indexSelector_injective (List.append_cancel_left heq)⟩

/-- The points lie in the order of time. -/
theorem pointAt_lt_iff (key : String) (a b : Int64) :
    pointAt key a < pointAt key b ↔ a.toInt < b.toInt := by
  rw [pointAt, pointAt, Key.item, Key.item, Key.append_lt_append_iff, Key.indexSelector_lt_iff]

/-- The selector of a point is that of its count. -/
@[simp]
theorem selectorOf_pointAt (key : String) (count : Int64) (contents : Bytes) :
    selectorOf key (pointAt key count, contents) = Key.indexSelector count := by
  rw [selectorOf, pointAt, Key.item, List.drop_left]

/-- An instant with a 64-bit count has a selector. -/
theorem instantSelector_ok {instant : Instant} {count : Int64}
    (h : instant.toInt64? = some count) :
    Key.instantSelector instant = .ok (Key.indexSelector count) := by
  rw [Key.instantSelector, h]

/-- Other instants have none. -/
theorem instantSelector_error {instant : Instant} (h : ¬ FitsInt64 instant.nanoseconds) :
    Key.instantSelector instant = .error .overflow := by
  rw [← Instant.toInt64?_isSome_iff, Option.not_isSome_iff_eq_none] at h
  rw [Key.instantSelector, h]

/-- The key of a point whose instant has a count. -/
theorem run_pointKey {instant : Instant} {count : Int64} (h : instant.toInt64? = some count)
    (key : String) (engine : Engine) :
    (pointKey key instant).run engine = (.ok (pointAt key count), engine) :=
  run_bind_ok (run_lift_ok (instantSelector_ok h) engine)

/-- A point at another instant has no key. -/
theorem run_pointKey_overflow {instant : Instant} (h : ¬ FitsInt64 instant.nanoseconds)
    (key : String) (engine : Engine) :
    (pointKey key instant).run engine = (.error .overflow, engine) :=
  run_bind_error (run_lift_error (instantSelector_error h) engine)

/-- The point at an instant is read back from its item. -/
theorem readPoint_pointAt (key : String) (count : Int64) {contents : Bytes} {value : Value}
    (hdecode : Frame.decode contents = .ok ⟨value, none⟩) :
    readPoint key (pointAt key count, contents) = .ok (.ofInt64 count, value) := by
  rw [readPoint, selectorOf_pointAt, Key.ofInstantSelector, Key.ofIndexSelector_indexSelector,
    hdecode]
  rfl

/-- The values of a finite map at the instants of 64-bit counts. -/
def lookups (points : Chronicle) (count : Int64) : Option Value :=
  points.lookup (.ofInt64 count)

/-- Whether all instants of a finite map are given by 64-bit counts. -/
def Countable (points : Chronicle) : Prop :=
  ∀ instant ∈ points, ∃ count, instant.toInt64? = some count ∧ .ofInt64 count = instant

/-- The counts of the instants of a finite map, in the order of time. -/
def counts (points : Chronicle) : List Int64 :=
  (Instant.inOrder points.keys).filterMap Instant.toInt64?

section Counts

variable {points : Chronicle}

/-- A point is put at one count, and all others stay. -/
theorem lookups_insert (points : Chronicle) (count : Int64) (value : Value) :
    lookups (points.insert (.ofInt64 count) value) =
      Function.update (lookups points) count (some value) :=
  lookup_insert_along (fun _ _ => Instant.ofInt64_injective) points count value

/-- A point is removed from one count, and all others stay. -/
theorem lookups_erase (points : Chronicle) (count : Int64) :
    lookups (points.erase (.ofInt64 count)) = Function.update (lookups points) count none :=
  lookup_erase_along (fun _ _ => Instant.ofInt64_injective) points count

/-- A chronicle without points can be counted. -/
theorem countable_empty : Countable ∅ :=
  fun _ hmem => absurd hmem Finmap.notMem_empty

/-- Points at instants with counts can be counted, -/
theorem Countable.insert (h : Countable points) (count : Int64) (value : Value) :
    Countable (points.insert (.ofInt64 count) value) := by
  intro other hother
  rcases Finmap.mem_insert.mp hother with rfl | hold
  · exact ⟨count, Instant.toInt64?_ofInt64 count, rfl⟩
  · exact h other hold

/-- and removing points leaves that so. -/
theorem Countable.erase (h : Countable points) (removed : Instant) :
    Countable (points.erase removed) :=
  fun other hother => h other (Finmap.mem_erase.mp hother).2

/-- The counts stand for exactly the instants of the finite map, in order. -/
theorem Countable.map_counts (h : Countable points) :
    (counts points).map .ofInt64 = Instant.inOrder points.keys := by
  have hback : ∀ instant ∈ Instant.inOrder points.keys,
      instant.toInt64?.map Instant.ofInt64 = some instant := by
    intro instant hinstant
    rw [Instant.mem_inOrder, Finmap.mem_keys] at hinstant
    obtain ⟨count, hcount, heq⟩ := h instant hinstant
    rw [hcount, Option.map_some, heq]
  rw [counts, List.map_filterMap, List.filterMap_congr hback, List.filterMap_some]

/-- The counts of a chronicle are those at which it has points. -/
theorem Countable.mem_counts_iff (h : Countable points) (count : Int64) :
    count ∈ counts points ↔ lookups points count ≠ none := by
  have hmem : count ∈ counts points ↔ .ofInt64 count ∈ (counts points).map Instant.ofInt64 :=
    (List.mem_map_of_injective fun _ _ => Instant.ofInt64_injective).symm
  rw [hmem, h.map_counts, Instant.mem_inOrder, Finmap.mem_keys, lookups, ne_eq,
    Finmap.lookup_eq_none, not_not]

/-- Every point has a count of its own. -/
theorem Countable.length_counts (h : Countable points) :
    (counts points).length = points.keys.card := by
  rw [← Instant.length_inOrder, ← h.map_counts, List.length_map]

/-- The points of the counts lie in the order of time. -/
theorem Countable.pairwise_pointAt (h : Countable points) (key : String) :
    (counts points).Pairwise fun a b => pointAt key a < pointAt key b := by
  have hsorted := Instant.pairwise_inOrder points.keys
  rw [← h.map_counts, List.pairwise_map] at hsorted
  exact hsorted.imp fun hlt => (pointAt_lt_iff key _ _).mpr ((Instant.ofInt64_lt_iff _ _).mp hlt)

/-- The listing, from the counts. -/
theorem Countable.listing_eq (h : Countable points) :
    listing points = (counts points).filterMap fun count =>
      (lookups points count).map fun value => (.ofInt64 count, value) := by
  rw [listing, ← h.map_counts, List.filterMap_map]
  rfl

end Counts

/-! ## Scans -/

/-- A scan that passes over what lies below one selector and stops at the first
one above another collects all rows between the two. -/
theorem visitRows_collectBetween (key : String) (lower upper : Bytes) {rows : List Row}
    (hsorted : rows.Pairwise fun a b => selectorOf key a < selectorOf key b)
    (collected : List Row) :
    Table.visitRows (collectBetween key lower upper) collected rows =
      (rows.filter fun row =>
        lower ≤ selectorOf key row ∧ selectorOf key row ≤ upper).reverse ++ collected := by
  induction rows generalizing collected with
  | nil => rfl
  | cons row rows ih =>
      obtain ⟨hfirst, hrest⟩ := List.pairwise_cons.mp hsorted
      rw [Table.visitRows, collectBetween]
      by_cases hlow : selectorOf key row < lower
      · have hout : ¬ lower ≤ selectorOf key row := fun hle => hle hlow
        rw [if_pos hlow, List.filter_cons_of_neg (by simp [hout])]
        exact ih hrest collected
      · rw [if_neg hlow]
        by_cases hhigh : upper < selectorOf key row
        · -- All later rows lie above the upper bound too.
          have hnone : (row :: rows).filter (fun row => decide
              (lower ≤ selectorOf key row ∧ selectorOf key row ≤ upper)) = [] := by
            rw [List.filter_eq_nil_iff]
            intro later hlater hbetween
            have hupper := (of_decide_eq_true hbetween).2
            rcases List.mem_cons.mp hlater with rfl | hlater
            · exact hupper hhigh
            · exact hupper (List.lt_trans hhigh (hfirst later hlater))
          rw [if_pos hhigh, hnone]
          rfl
        · have hin : lower ≤ selectorOf key row ∧ selectorOf key row ≤ upper := ⟨hlow, hhigh⟩
          rw [if_neg hhigh, List.filter_cons_of_pos (by simpa using hin), List.reverse_cons,
            List.append_assoc, List.singleton_append]
          exact ih hrest (row :: collected)

/-- A scan that keeps the row it met last ends with the last row. -/
theorem visitRows_last (rows : List Row) (start : Option Row) :
    Table.visitRows (fun _ row => (some row, .proceed)) start rows = rows.getLast?.or start := by
  induction rows generalizing start with
  | nil => rfl
  | cons row rows ih =>
      rw [Table.visitRows]
      dsimp only
      rw [ih, List.getLast?_cons]
      cases rows.getLast? <;> rfl

section Steps

variable {table : Table} {key : String} {steps : Nat} {count : UInt64} {points : Chronicle}

/-- Whether the table holds the points of a finite map at a key. -/
def Holds (key : String) (steps : Nat) : Option Chronicle → Table → Prop
  | none, table => table.Vacant key
  | some points, table => Countable points ∧ ∃ count : UInt64, count.toNat ≤ steps ∧
      Tallied table key .series .series count none ∧
      Placed table key .series (pointAt key) (lookups points)

/-- What is answered, what is left, and that nothing changed if nothing had to. -/
def Answered (key : String) (steps : Nat) (state : Option Chronicle) (call : Call)
    (table : Table) (outcome : Except StoreError Reply) (after : Table) : Prop :=
  outcome = (call.answer state).1 ∧ Holds key (steps + 1) (call.answer state).2 after ∧
    (call.Idle state → after = table)

/-- The number of points is the count. -/
theorem count_eq (hcountable : Countable points)
    (htallied : Tallied table key .series .series count none)
    (hplaced : Placed table key .series (pointAt key) (lookups points)) :
    count = UInt64.ofNat points.keys.card := by
  have hrows := hplaced.countUnder_eq (hcountable.pairwise_pointAt key) hcountable.mem_counts_iff
  rw [← hcountable.length_counts, ← hrows, htallied.rows, UInt64.ofNat_toNat]

/-- What is read from the rows of some of the counts. -/
theorem mapM_readPoint (hplaced : Placed table key .series (pointAt key) (lookups points))
    {some_ : List Int64} (hsome : ∀ count ∈ some_, lookups points count ≠ none) :
    (some_.map fun count => (pointAt key count, (table.get? (pointAt key count)).getD [])).mapM
        (readPoint key) =
      .ok (some_.filterMap fun count =>
        (lookups points count).map fun value => (.ofInt64 count, value)) := by
  apply hplaced.mapM_rows hsome
  intro count value contents hvalue hdecode
  exact ⟨(.ofInt64 count, value), by rw [hvalue]; rfl, readPoint_pointAt key count hdecode⟩

/-- The points between two instants, from the counts. -/
theorem between_eq (hcountable : Countable points) (low high : Int64) :
    between points (.ofInt64 low) (.ofInt64 high) =
      ((counts points).filter fun count =>
        low.toInt ≤ count.toInt ∧ count.toInt ≤ high.toInt).filterMap fun count =>
          (lookups points count).map fun value => (.ofInt64 count, value) := by
  rw [between, hcountable.listing_eq, List.filter_filterMap, List.filterMap_filter]
  congr 1
  funext count
  cases lookups points count with
  | none => simp
  | some value => simp [Option.filter, Instant.ofInt64_le_iff]

/-- The scan of a range collects the rows of the points in it. -/
theorem run_collectBetween (hcountable : Countable points)
    (hplaced : Placed table key .series (pointAt key) (lookups points)) (low high : Int64) :
    (visitUnder (Key.itemStem key .series)
        (collectBetween key (Key.indexSelector low) (Key.indexSelector high)) []).run
        (ofTable table) =
      (.ok (((counts points).filter fun count =>
        low.toInt ≤ count.toInt ∧ count.toInt ≤ high.toInt).map fun count =>
          (pointAt key count, (table.get? (pointAt key count)).getD [])).reverse,
        ofTable table) := by
  have hsorted : ((counts points).map fun count =>
      (pointAt key count, (table.get? (pointAt key count)).getD [])).Pairwise fun a b =>
        selectorOf key a < selectorOf key b := by
    rw [List.pairwise_map]
    apply (hcountable.pairwise_pointAt key).imp
    intro a b hlt
    rw [selectorOf_pointAt, selectorOf_pointAt, Key.indexSelector_lt_iff]
    exact (pointAt_lt_iff key a b).mp hlt
  rw [run_visitUnder, hplaced.rowsUnder_eq (hcountable.pairwise_pointAt key)
    hcountable.mem_counts_iff, visitRows_collectBetween key _ _ hsorted, List.append_nil,
    List.filter_map]
  congr 5
  funext count
  simp only [Function.comp_apply, selectorOf_pointAt, ← List.not_lt, Key.indexSelector_lt_iff,
    Int.not_lt]

/-- The points between two instants are found. -/
theorem run_range {start stop : Instant} (hcountable : Countable points)
    (htallied : Tallied table key .series .series count none)
    (hplaced : Placed table key .series (pointAt key) (lookups points))
    (hstart : start.IsRegular) (hstop : stop.IsRegular) :
    (range key start stop).run (ofTable table) =
      (if stop < start then .ok []
        else if FitsInt64 start.nanoseconds ∧ FitsInt64 stop.nanoseconds then
          .ok (between points start stop)
        else .error .overflow, ofTable table) := by
  rw [range, run_bind_ok (run_readCount htallied.frame)]
  by_cases hinverted : stop < start
  · rw [if_pos hinverted, if_pos hinverted]
    rfl
  rw [if_neg hinverted, if_neg hinverted]
  by_cases hlow : FitsInt64 start.nanoseconds
  · obtain ⟨low, hlowCount, rfl⟩ := Instant.exists_ofInt64 hstart hlow
    rw [run_bind_ok (run_lift_ok (instantSelector_ok hlowCount) _)]
    by_cases hhigh : FitsInt64 stop.nanoseconds
    · obtain ⟨high, hhighCount, rfl⟩ := Instant.exists_ofInt64 hstop hhigh
      have hsome : ∀ count ∈ (counts points).filter fun count =>
          low.toInt ≤ count.toInt ∧ count.toInt ≤ high.toInt, lookups points count ≠ none :=
        fun count hmem => (hcountable.mem_counts_iff count).mp (List.mem_filter.mp hmem).1
      rw [run_bind_ok (run_lift_ok (instantSelector_ok hhighCount) _),
        run_bind_ok (run_collectBetween hcountable hplaced low high), List.reverse_reverse,
        if_pos ⟨hlow, hhigh⟩, between_eq hcountable]
      exact run_lift_ok (mapM_readPoint hplaced hsome) _
    · rw [run_bind_error (run_lift_error (instantSelector_error hhigh) _), if_neg (hhigh ·.2)]
      rfl
  · rw [run_bind_error (run_lift_error (instantSelector_error hlow) _), if_neg (hlow ·.1)]
    rfl

/-- The point with the greatest instant is found. -/
theorem run_latest (hcountable : Countable points)
    (htallied : Tallied table key .series .series count none)
    (hplaced : Placed table key .series (pointAt key) (lookups points)) :
    (latest key).run (ofTable table) = (.ok (listing points).getLast?, ofTable table) := by
  rw [latest, run_bind_ok (run_readCount htallied.frame), run_bind_ok (run_visitUnder table _ _ _),
    visitRows_last, Option.or_none, hplaced.rowsUnder_eq (hcountable.pairwise_pointAt key)
    hcountable.mem_counts_iff, hcountable.listing_eq]
  rcases List.eq_nil_or_concat (counts points) with hnil | ⟨older, newest, hconcat⟩
  · rw [hnil]
    rfl
  · rw [List.concat_eq_append] at hconcat
    have hmem : newest ∈ counts points := by simp [hconcat]
    obtain ⟨value, hvalue⟩ :=
      Option.ne_none_iff_exists'.mp ((hcountable.mem_counts_iff newest).mp hmem)
    obtain ⟨contents, hget, hdecode⟩ := hplaced.hasFrame hvalue
    simp only [hconcat, List.map_append, List.map_cons, List.map_nil, List.getLast?_concat, hget,
      Option.getD_some, List.filterMap_append, List.filterMap_cons, List.filterMap_nil, hvalue,
      Option.map_some]
    rw [run_bind_ok (run_lift_ok (readPoint_pointAt key newest hdecode) _)]
    rfl

/-! ## Single operations -/

/-- Where there is no series, all operations but the creation fail. -/
theorem ends_call_absent (env : Environment) (hkey : Key.isReserved key = false)
    (h : table.Vacant key) (call : Call) :
    Ends table ((call.operation key).perform env) (Answered key steps none call table) := by
  have habsent := h _ (.self key)
  have hread : (readCount key .series).run (ofTable table) = (.error .notFound, ofTable table) :=
    run_readCount_absent habsent
  have hfails : call ≠ .create → Answered key steps none call table (.error .notFound) table := by
    intro hcall
    cases call with
    | create => exact absurd rfl hcall
    | _ => exact ⟨rfl, h, fun _ => rfl⟩
  cases call with
  | create =>
      refine ends_silent ((ends_create_tallied (Counts.counted .series) hkey h).conseq ?_)
      rintro outcome after ⟨rfl, htallied⟩
      refine ⟨rfl, ⟨countable_empty, 0, Nat.zero_le _, htallied, ?_⟩, ?_⟩
      · exact .of_countUnder_eq_zero (places_pointAt key) htallied.rows
      · rintro (⟨_, herror⟩ | ⟨_, hstate⟩)
        · cases herror
        · cases hstate
  | delete => exact ends_silent (.bind_error (run_readAs_none .series habsent) (hfails nofun))
  | _ => exact .map _ (.bind_error hread (hfails nofun))

/-- More operations may follow. -/
theorem Holds.succ {state : Option Chronicle} (h : Holds key steps state table) :
    Holds key (steps + 1) state table := by
  cases state with
  | none => exact h
  | some points =>
      obtain ⟨hcountable, count, hcount, hrest⟩ := h
      exact ⟨hcountable, count, by omega, hrest⟩

/-- An operation that leaves the finite map and the rows as they are. -/
theorem answered_same {call : Call} {outcome : Except StoreError Reply}
    {state : Option Chronicle} (h : Holds key steps state table)
    (hanswer : call.answer state = (outcome, state)) :
    Answered key steps state call table outcome table := by
  rw [Answered, hanswer]
  exact ⟨rfl, h.succ, fun _ => rfl⟩

/-- An operation that answers the number of points that it leaves. -/
theorem answered_counted {call : Call} {after : Table} {next : UInt64} {changed : Chronicle}
    (hnext : next.toNat ≤ steps + 1) (hcountable : Countable changed)
    (htallied : Tallied after key .series .series next none)
    (hplaced : Placed after key .series (pointAt key) (lookups changed))
    (hanswer : call.answer (some points) = (counted changed, some changed))
    (hidle : call.value? = none → changed = points → after = table) :
    Answered key steps (some points) call table (.ok (.count next)) after := by
  rw [Answered, Call.Idle, hanswer]
  refine ⟨?_, ⟨hcountable, next, hnext, htallied, hplaced⟩, ?_⟩
  · rw [counted, ← count_eq hcountable htallied hplaced]
  · rintro (⟨_, herror⟩ | ⟨hnone, hstate⟩)
    · cases herror
    · exact hidle hnone (Option.some.inj hstate)

section Present

variable {instant : Instant} {point : Int64} {value : Value}
  (hcountable : Countable points) (htallied : Tallied table key .series .series count none)
  (hplaced : Placed table key .series (pointAt key) (lookups points))
include hcountable htallied hplaced

/-- Adding a point puts it into the chronicle and answers how many there are. -/
theorem ends_add (hcount : count.toNat ≤ steps) (hsteps : steps + 1 < 9223372036854775808)
    (hregular : instant.IsRegular) (hvalue : Survives value) :
    Ends table (Reply.count <$> add key instant value)
      (Answered key steps (some points) (.add instant value) table) := by
  refine .map _ (.bind_run (run_readCount htallied.frame) ?_)
  by_cases hfits : FitsInt64 instant.nanoseconds
  · obtain ⟨point, hpoint, rfl⟩ := Instant.exists_ofInt64 hregular hfits
    obtain ⟨item, hencode, hdecode⟩ := hvalue
    refine .bind_run (run_pointKey hpoint key _)
      ((hplaced.ends_putItem htallied (by omega) point hencode hdecode).conseq ?_)
    rintro outcome after ⟨next, rfl, hnext, htallied', hplaced'⟩
    rw [← lookups_insert] at hplaced'
    exact answered_counted (by omega) (hcountable.insert point value) htallied' hplaced'
      (if_pos hfits) fun hnone => nomatch hnone
  · exact .bind_error (run_pointKey_overflow hfits key _)
      (answered_same ⟨hcountable, count, hcount, htallied, hplaced⟩ (if_neg hfits))

/-- Reading a point answers that of the chronicle. -/
theorem ends_get (hcount : count.toNat ≤ steps) (hregular : instant.IsRegular) :
    Ends table (Reply.value <$> get key instant)
      (Answered key steps (some points) (.get instant) table) := by
  have hsame : ∀ {outcome : Except StoreError Reply},
      Call.answer (.get instant) (some points) = (outcome, some points) →
      Answered key steps (some points) (.get instant) table outcome table :=
    answered_same ⟨hcountable, count, hcount, htallied, hplaced⟩
  refine .map _ (.bind_run (run_readCount htallied.frame) ?_)
  by_cases hfits : FitsInt64 instant.nanoseconds
  · obtain ⟨point, hpoint, rfl⟩ := Instant.exists_ofInt64 hregular hfits
    refine .bind_run (run_pointKey hpoint key _) ?_
    cases hlookup : lookups points point with
    | none =>
        refine .bind_error (run_bind_ok (run_read_none (hplaced.get?_eq_none_iff.mpr hlookup)))
          (hsame ?_)
        rw [lookups] at hlookup
        rw [Call.answer, if_pos hfits, hlookup]
        rfl
    | some value =>
        refine .bind_run (run_readExisting (hplaced.hasFrame hlookup)) (.pure (hsame ?_))
        rw [lookups] at hlookup
        rw [Call.answer, if_pos hfits, hlookup]
        rfl
  · refine .bind_error (run_pointKey_overflow hfits key _) (hsame ?_)
    rw [Call.answer, if_neg hfits]
    rfl

/-- Removing a point removes it from the chronicle and answers how many are left. -/
theorem ends_remove (hcount : count.toNat ≤ steps) (hregular : instant.IsRegular) :
    Ends table (Reply.count <$> remove key instant)
      (Answered key steps (some points) (.remove instant) table) := by
  refine .map _ (.bind_run (run_readCount htallied.frame) ?_)
  by_cases hfits : FitsInt64 instant.nanoseconds
  · obtain ⟨point, hpoint, rfl⟩ := Instant.exists_ofInt64 hregular hfits
    refine .bind_run (run_pointKey hpoint key _)
      ((hplaced.ends_takeItem htallied point).conseq ?_)
    rintro outcome after ⟨next, rfl, hnext, htallied', hafter⟩
    split at hafter
    · rename_i hnone
      have herase := erase_eq_self_of_lookup (Option.isNone_iff_eq_none.mp hnone)
      subst hafter
      refine answered_counted (by omega) hcountable htallied' hplaced ?_ fun _ _ => rfl
      rw [Call.answer, if_pos hfits, herase]
    · rename_i hsome
      rw [← lookups_erase] at hafter
      refine answered_counted (by omega) (hcountable.erase _) htallied' hafter (if_pos hfits) ?_
      intro _ hstate
      have hlookup := congrArg (Finmap.lookup (.ofInt64 point)) hstate
      rw [Finmap.lookup_erase] at hlookup
      exact absurd (Option.isNone_iff_eq_none.mpr hlookup.symm) hsome
  · exact .bind_error (run_pointKey_overflow hfits key _)
      (answered_same ⟨hcountable, count, hcount, htallied, hplaced⟩ (if_neg hfits))

/-- An operation on a series answers what the finite map answers, and leaves what
the finite map becomes. -/
theorem ends_call_present (env : Environment) (hkey : Key.isReserved key = false)
    (hcount : count.toNat ≤ steps) (hsteps : steps + 1 < 9223372036854775808) {call : Call}
    (hvalue : ∀ value, call.value? = some value → Survives value)
    (hregular : ∀ instant ∈ call.instants, instant.IsRegular) :
    Ends table ((call.operation key).perform env)
      (Answered key steps (some points) call table) := by
  have hholds : Holds key steps (some points) table :=
    ⟨hcountable, count, hcount, htallied, hplaced⟩
  cases call with
  | create =>
      exact ends_silent (.of_run (run_create_taken hkey htallied.frame.get?_ne_none _)
        (answered_same hholds rfl))
  | add instant value =>
      exact ends_add hcountable htallied hplaced hcount hsteps
        (hregular instant (List.mem_singleton_self _)) (hvalue value rfl)
  | get instant =>
      exact ends_get hcountable htallied hplaced hcount
        (hregular instant (List.mem_singleton_self _))
  | remove instant =>
      exact ends_remove hcountable htallied hplaced hcount
        (hregular instant (List.mem_singleton_self _))
  | range start stop =>
      have hrun := run_range hcountable htallied hplaced
        (hregular start (by simp [Call.instants])) (hregular stop (by simp [Call.instants]))
      refine .map _ (.of_run hrun (answered_same hholds ?_))
      rw [Call.answer]
      split_ifs <;> rfl
  | latest =>
      exact .map _ (.of_run (run_latest hcountable htallied hplaced) (answered_same hholds rfl))
  | size =>
      refine .map _ (.bind_run (run_readCount htallied.frame) (.pure ?_))
      exact answered_counted (Nat.le_succ_of_le hcount) hcountable htallied hplaced rfl
        fun _ _ => rfl
  | delete =>
      refine ends_silent ((htallied.ends_deleteAs rfl).conseq ?_)
      rintro outcome after ⟨rfl, hafter⟩
      refine ⟨rfl, hafter, ?_⟩
      rintro (⟨_, herror⟩ | ⟨_, hstate⟩)
      · cases herror
      · cases hstate

end Present

/-! ## Runs -/

/-- The operations on a series refine those on a finite map. -/
theorem refines (key : String) (hkey : Key.isReserved key = false) :
    Refines key (Call.operation key) Call.answer
      (fun call => (∀ value, call.value? = some value → Survives value) ∧
        ∀ instant ∈ call.instants, instant.IsRegular)
      Call.Idle (Holds key) := by
  refine ⟨fun call => by cases call <;> rfl, fun call => by cases call <;> rfl, ?_⟩
  rintro env steps state table call ⟨hvalue, hregular⟩ hsteps hholds
  cases state with
  | none => exact ends_call_absent env hkey hholds call
  | some points =>
      obtain ⟨hcountable, count, hcount, htallied, hplaced⟩ := hholds
      exact ends_call_present hcountable htallied hplaced env hkey hcount hsteps hvalue hregular

/-- Whether the rows of a table are those of one series with the points of a finite
map, or there are none: the metadata with their number, and an item for each
point under its count of nanoseconds. -/
def Laid (key : String) : Option Chronicle → Table → Prop
  | none, table => table = .empty
  | some points, table =>
      table.HasFrame (Key.ofText key) ⟨.series (UInt64.ofNat points.keys.card), none⟩ ∧
      (∀ physical, table.get? physical ≠ none ↔ physical = Key.ofText key ∨
        ∃ count, .ofInt64 count ∈ points ∧ physical = pointAt key count) ∧
      ∀ count value, points.lookup (.ofInt64 count) = some value →
        table.HasFrame (pointAt key count) ⟨value, none⟩

/-- A table that holds nothing but one series is laid out as such. -/
theorem Holds.laid {state : Option Chronicle} (h : Holds key steps state table)
    (halone : Alone table key) : Laid key state table := by
  cases state with
  | none => exact Table.Vacant.eq_empty h halone
  | some points =>
      obtain ⟨hcountable, count, _, htallied, hplaced⟩ := h
      refine ⟨?_, fun physical => ?_, fun count value hvalue => hplaced.hasFrame hvalue⟩
      · rw [← count_eq hcountable htallied hplaced]
        exact htallied.frame
      · rw [hplaced.get?_ne_none_iff htallied (halone physical)]
        simp only [lookups, ne_eq, Finmap.lookup_eq_none, not_not]

end Steps

/-- A session on an empty store answers any run of operations on one series as a
finite map from instants does.  The points of a range are in strictly increasing
order of time, and exactly those within its bounds; the latest point is the one
with the greatest instant. -/
theorem run_calls_eq_chronicle (session : Session) (hstart : session.engine = .ofTable .empty)
    (key : String) (hkey : Key.isReserved key = false) (calls : List Call)
    (hcount : calls.length < 2 ^ 63)
    (hvalues : ∀ call ∈ calls, ∀ value, call.value? = some value → Survives value)
    (hregular : ∀ call ∈ calls, ∀ instant ∈ call.instants, instant.IsRegular) :
    RunsAs session (Call.operation key) Call.answer Call.Idle (Laid key) none calls ∧
      ∀ points : Chronicle,
        (∀ start stop,
          (between points start stop).Pairwise (fun a b => a.1 < b.1) ∧
          ∀ instant value, (instant, value) ∈ between points start stop ↔
            points.lookup instant = some value ∧ start ≤ instant ∧ instant ≤ stop) ∧
        ((listing points).getLast? = none → points = ∅) ∧
        ∀ newest, (listing points).getLast? = some newest →
          points.lookup newest.1 = some newest.2 ∧
            ∀ instant ∈ points, instant = newest.1 ∨ instant < newest.1 := by
  constructor
  · refine (refines key hkey).runsAs hstart (fun call hcall => ?_) (by omega)
      (fun physical _ => Table.get?_empty physical) fun _ _ _ h halone => h.laid halone
    exact ⟨hvalues call hcall, hregular call hcall⟩
  · intro points
    refine ⟨fun start stop => ⟨pairwise_between points start stop, fun _ _ => mem_between_iff⟩,
      eq_empty_of_getLast?_listing, fun _ => getLast?_listing_eq_some⟩

/-- Points on both sides of 1970, and one that no 64-bit count reaches. -/
theorem run_calls_eq_chronicle_epoch :
    let session : Session := ⟨.ofTable .empty, ⟨0⟩, ⟨60, by decide, by decide⟩, .none⟩
    let early := Instant.ofInt64 (-1500000000)
    let epoch := Instant.ofInt64 0
    let late := Instant.ofInt64 7
    let far : Instant := ⟨lastSecond, 0, by decide, by decide, by decide⟩
    let calls : List Call := [.latest, .create, .add late (.int 7), .add early .null,
      .add epoch (.text "x"), .add early (.bool true), .range early epoch, .range late early,
      .range early far, .add far .null, .get far, .latest, .remove late, .remove late, .latest,
      .get early, .size, .delete, .size]
    Key.isReserved "k:T:" = false ∧ calls.length < 2 ^ 63 ∧
      (∀ call ∈ calls, ∀ value, call.value? = some value → Survives value) ∧
      (∀ call ∈ calls, ∀ instant ∈ call.instants, instant.IsRegular) ∧
      (session.run (stepsOf (Call.operation "k:T:") calls)).1 =
        [.error .notFound, .ok .done, .ok (.count 1), .ok (.count 2), .ok (.count 3),
          .ok (.count 3), .ok (.points [(early, .bool true), (epoch, .text "x")]),
          .ok (.points []), .error .overflow, .error .overflow, .error .overflow,
          .ok (.point (some (late, .int 7))), .ok (.count 2), .ok (.count 2),
          .ok (.point (some (epoch, .text "x"))), .ok (.value (.bool true)), .ok (.count 2),
          .ok .done, .error .notFound] ∧
      RunsAs session (Call.operation "k:T:") Call.answer Call.Idle (Laid "k:T:") none calls := by
  intro session early epoch late far calls
  have hkey : Key.isReserved "k:T:" = false := by decide
  have hcount : calls.length < 2 ^ 63 := by decide
  have hvalues : ∀ call ∈ calls, ∀ value, call.value? = some value → Survives value := by
    simp only [calls, List.forall_mem_cons, Call.value?, Option.some.injEq, forall_eq',
      reduceCtorEq, false_imp_iff, implies_true, true_and, and_true, List.not_mem_nil]
    exact ⟨Deque.survives_of_storable trivial rfl, Deque.survives_of_storable trivial rfl,
      Deque.survives_of_storable trivial rfl, Deque.survives_of_storable trivial rfl,
      Deque.survives_of_storable trivial rfl⟩
  have hregular : ∀ call ∈ calls, ∀ instant ∈ call.instants, instant.IsRegular := by
    decide +kernel
  exact ⟨hkey, hcount, hvalues, hregular, by decide +kernel,
    (run_calls_eq_chronicle session rfl "k:T:" hkey calls hcount hvalues hregular).1⟩

end StructuredStore.Series
