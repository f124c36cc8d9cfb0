import StructuredStore.Proofs.Expiry.Settling

/-!
# Buckets that are due

A sweep reads the keys under the stem of the buckets, in order, and stops at the
first bucket that is not due.  Rows that are no frames of buckets are passed
over: items have no numeral behind the stem, or a longer one.

Main results:

- `exists_bucket_of_bucketOrdinal?`: only the frames of buckets are read as
  buckets.
- `IsDue`, `exists_visitRows_collectDue`: the scan meets exactly the buckets that
  are due.
- `Consistent.ends_sweep`: what a sweep of a consistent store leads to.
-/

namespace StructuredStore

open Engine Store

/-! ## Rows that are read as buckets -/

namespace Key

/-- Under the stem of the buckets only their frames are read as buckets. -/
theorem exists_bucket_of_bucketOrdinal? {key : String} {physical : Bytes} {ordinal : Nat}
    (hkey : Logical key) (howns : Owns key physical)
    (hstem : Utf8.encode bucketStem <+: physical) (h : bucketOrdinal? physical = some ordinal) :
    ∃ seconds, physical = ofText (bucket seconds) := by
  rcases hstem with ⟨rest, rfl⟩
  rcases numeral_of_bucketOrdinal? h with ⟨hlength, hcolon⟩
  rw [encode_bucketStem, List.append_assoc, List.singleton_append] at howns ⊢
  rcases hkey with hfree | ⟨seconds, rfl⟩
  · exfalso
    rcases howns with hself | ⟨marker, tail, htail⟩
    · exact hfree.notMem (by rw [← hself]; simp)
    · rw [itemStem_eq, List.append_assoc] at htail
      rcases eq_of_append_colon hfree.notMem colon_notMem_bucketName htail with ⟨_, hrest⟩
      exact hcolon (by rw [← hrest]; simp)
  · rcases howns with hself | ⟨marker, tail, htail⟩
    · exact ⟨seconds, hself⟩
    · have hbytes := congrArg List.length htail
      simp only [itemStem_eq, ofText_bucket, List.length_append, List.length_cons,
        Numeral.length_digitBytes, hlength] at hbytes
      omega

end Key

/-! ## The scan -/

namespace Expiry

/-- Whether these are the buckets up to the limit among the rows, each of them
once. -/
structure IsDue (limit : Nat) (rows : List Row) (due : List Int64) : Prop where
  nodup : due.Nodup
  mem_iff : ∀ seconds, seconds ∈ due ↔
    Key.bucketOrdinal seconds ≤ limit ∧ Key.ofText (Key.bucket seconds) ∈ rows.map (·.1)

section Rows

variable {limit : Nat} {row : Row} {rows : List Row} {due : List Int64} {start : Int64}

/-- The buckets of later rows have higher numbers. -/
theorem bucketOrdinal_lt_of_mem (hsorted : Rows.Sorted (row :: rows))
    (hrow : row.1 = Key.ofText (Key.bucket start)) {seconds : Int64}
    (hmem : Key.ofText (Key.bucket seconds) ∈ rows.map (·.1)) :
    Key.bucketOrdinal start < Key.bucketOrdinal seconds := by
  rcases List.mem_map.mp hmem with ⟨other, hother, heq⟩
  have hlt := (List.pairwise_cons.mp hsorted).1 other hother
  rw [heq, hrow] at hlt
  rwa [Key.bucketOrdinal_lt_iff, ← Key.ofText_bucket_lt_iff]

/-- A row that is no bucket is passed over. -/
theorem IsDue.pass (h : IsDue limit rows due) (hrow : Key.bucketOrdinal? row.1 = none) :
    IsDue limit (row :: rows) due := by
  refine ⟨h.nodup, fun seconds => ?_⟩
  have hne : Key.ofText (Key.bucket seconds) ≠ row.1 := by
    intro heq
    rw [← heq, Key.bucketOrdinal?_bucket] at hrow
    cases hrow
  rw [h.mem_iff, List.map_cons, List.mem_cons]
  simp [hne]

/-- Behind the first bucket beyond the limit there is none to be found. -/
theorem isDue_nil (hsorted : Rows.Sorted (row :: rows))
    (hrow : row.1 = Key.ofText (Key.bucket start)) (hlimit : limit < Key.bucketOrdinal start) :
    IsDue limit (row :: rows) [] := by
  refine ⟨List.nodup_nil, fun seconds => ⟨fun hmem => (by cases hmem), ?_⟩⟩
  rw [List.map_cons, List.mem_cons]
  rintro ⟨hle, heq | hmem⟩
  · rw [hrow] at heq
    rw [Key.bucket_injective (Utf8.encode_injective heq)] at hle
    omega
  · have hlt := bucketOrdinal_lt_of_mem hsorted hrow hmem
    omega

/-- A bucket up to the limit is one more. -/
theorem IsDue.cons (h : IsDue limit rows due) (hsorted : Rows.Sorted (row :: rows))
    (hrow : row.1 = Key.ofText (Key.bucket start)) (hlimit : Key.bucketOrdinal start ≤ limit) :
    IsDue limit (row :: rows) (start :: due) := by
  constructor
  · refine List.nodup_cons.mpr ⟨fun hmem => ?_, h.nodup⟩
    have hlt := bucketOrdinal_lt_of_mem hsorted hrow ((h.mem_iff start).mp hmem).2
    omega
  · intro seconds
    rw [List.mem_cons, h.mem_iff, List.map_cons, List.mem_cons]
    constructor
    · rintro (rfl | ⟨hle, hmem⟩)
      · exact ⟨hlimit, Or.inl hrow.symm⟩
      · exact ⟨hle, Or.inr hmem⟩
    · rintro ⟨hle, heq | hmem⟩
      · rw [hrow] at heq
        exact Or.inl (Key.bucket_injective (Utf8.encode_injective heq))
      · exact Or.inr ⟨hle, hmem⟩

/-- The scan meets exactly the buckets up to the limit. -/
theorem exists_visitRows_collectDue (hsorted : Rows.Sorted rows)
    (hrows : ∀ row ∈ rows, ∀ ordinal, Key.bucketOrdinal? row.1 = some ordinal →
      ∃ seconds, row.1 = Key.ofText (Key.bucket seconds)) (found : List String) :
    ∃ due, Table.visitRows (collectDue limit) found rows = (due.map Key.bucket).reverse ++ found ∧
      IsDue limit rows due := by
  induction rows generalizing found with
  | nil => exact ⟨[], rfl, List.nodup_nil, by simp⟩
  | cons row rows ih =>
      have htail := (List.pairwise_cons.mp hsorted).2
      rcases List.forall_mem_cons.mp hrows with ⟨hrow, hrows⟩
      cases hordinal : Key.bucketOrdinal? row.1 with
      | none =>
          rcases ih htail hrows found with ⟨due, hvisit, hdue⟩
          refine ⟨due, ?_, hdue.pass hordinal⟩
          rw [Table.visitRows, collectDue, hordinal]
          exact hvisit
      | some ordinal =>
          rcases hrow ordinal hordinal with ⟨start, hstart⟩
          rw [hstart, Key.bucketOrdinal?_bucket] at hordinal
          have hvalue : Key.bucketOrdinal start = ordinal := Option.some.inj hordinal
          by_cases hlimit : limit < Key.bucketOrdinal start
          · refine ⟨[], ?_, isDue_nil hsorted hstart hlimit⟩
            rw [Table.visitRows, collectDue, hstart, Key.bucketOrdinal?_bucket]
            simp [hlimit]
          · rcases ih htail hrows (Key.bucket start :: found) with ⟨due, hvisit, hdue⟩
            refine ⟨start :: due, ?_, hdue.cons hsorted hstart (Nat.le_of_not_lt hlimit)⟩
            rw [Table.visitRows, collectDue, hstart, Key.bucketOrdinal?_bucket, Key.ofText,
              Utf8.decode?_encode]
            simp [hlimit, hvisit]

end Rows

namespace IsDue

variable {table : Table} {rows : List Row} {limit seconds : Int64} {due : List Int64}

theorem toInt_le (h : IsDue (Key.bucketOrdinal limit) rows due) (hmem : seconds ∈ due) :
    seconds.toInt ≤ limit.toInt := by
  have hlt := Key.bucketOrdinal_lt_iff limit seconds
  have hle := ((h.mem_iff seconds).mp hmem).1
  omega

/-- A bucket up to the limit that is not due is absent. -/
theorem absent
    (h : IsDue (Key.bucketOrdinal limit) (table.rowsUnder (Utf8.encode Key.bucketStem)) due)
    (hle : seconds.toInt ≤ limit.toInt) (hmem : seconds ∉ due) :
    table.get? (Key.ofText (Key.bucket seconds)) = none := by
  by_contra hget
  have hlt := Key.bucketOrdinal_lt_iff limit seconds
  apply hmem
  rw [h.mem_iff, Table.mem_map_fst_rowsUnder]
  refine ⟨by omega, hget, ?_⟩
  rw [Key.ofText, Key.bucket, Utf8.encode_append]
  exact List.prefix_append _ _

/-- A bucket that lists a name is due if it does not lie behind the limit. -/
theorem mem_iff_toInt_le {steps : Nat} {names : List String}
    (h : IsDue (Key.bucketOrdinal limit) (table.rowsUnder (Utf8.encode Key.bucketStem)) due)
    (hlisted : Listed table (Key.bucket seconds) steps names) (hnames : names ≠ []) :
    seconds ∈ due ↔ seconds.toInt ≤ limit.toInt := by
  refine ⟨h.toInt_le, fun hle => ?_⟩
  by_contra hmem
  exact hlisted.get?_ne_none hnames (h.absent hle hmem)

end IsDue

end Expiry

/-! ## Sweeps -/

namespace Consistent

variable {table : Table} {steps : Nat} {names : Int64 → List String}

open Expiry

/-- Under the stem of the buckets only their frames are read as buckets. -/
theorem exists_bucket (h : Consistent table steps names) {row : Row}
    (hrow : row ∈ table.rowsUnder (Utf8.encode Key.bucketStem)) (ordinal : Nat)
    (hordinal : Key.bucketOrdinal? row.1 = some ordinal) :
    ∃ seconds, row.1 = Key.ofText (Key.bucket seconds) := by
  rcases (Table.mem_rowsUnder _ _ row).mp hrow with ⟨hget, hstem⟩
  rcases h.owned row.1 (by rw [hget]; exact Option.some_ne_none _) with ⟨key, hkey, howns⟩
  exact Key.exists_bucket_of_bucketOrdinal? hkey howns hstem hordinal

/-- A sweep succeeds, reports how many keys it deleted, and clears the buckets up
to the present one. -/
theorem ends_sweep_clears (h : Consistent table steps names)
    (hsteps : steps < 9223372036854775808) (width : BucketWidth) (now : Instant) :
    Ends table (sweep width now) fun outcome after =>
      ∃ report, outcome = .ok report ∧ report.deleted + after.population = table.population ∧
        ∃ swept, IsDue (Key.bucketOrdinal (Int64.ofInt (width.ceil now)))
            (table.rowsUnder (Utf8.encode Key.bucketStem)) swept ∧
          Clears table steps names now width swept after := by
  have hsorted := Table.sorted_rowsUnder table (Utf8.encode Key.bucketStem)
  rcases @exists_visitRows_collectDue (Key.bucketOrdinal (Int64.ofInt (width.ceil now))) _ hsorted
    (fun row hrow => h.exists_bucket hrow) [] with ⟨swept, hvisit, hdue⟩
  refine .bind_run (run_visitUnder table _ _ _) ?_
  rw [hvisit, List.append_nil, List.reverse_reverse]
  refine (ends_sweepBuckets h hdue.nodup hsteps).conseq ?_
  rintro outcome after ⟨report, hok, hdeleted, hclears⟩
  exact ⟨report, hok, hdeleted, swept, hdue, hclears⟩

/-- A sweep succeeds, and removes the keys that are listed in buckets up to the
present one and whose expiry has come. -/
theorem ends_sweep (h : Consistent table steps names) (hsteps : steps < 9223372036854775808)
    (width : BucketWidth) (now : Instant) :
    Ends table (sweep width now) fun outcome after =>
      (∃ report, outcome = .ok report) ∧
      ∃ swept : List Int64,
        (∀ seconds, names seconds ≠ [] →
          seconds.toInt ≤ (Int64.ofInt (width.ceil now)).toInt → seconds ∈ swept) ∧
        Consistent after steps (sweptNames width now table swept names) ∧
        Removes table (fun key => (∃ seconds ∈ swept, key ∈ names seconds) ∧
          hasCome now (table.expiryOf key) = true) after := by
  refine (h.ends_sweep_clears hsteps width now).conseq ?_
  rintro outcome after ⟨report, hok, _, swept, hdue, hclears⟩
  refine ⟨⟨report, hok⟩, swept, fun seconds hnames hle => ?_, hclears.consistent, hclears.removes⟩
  exact (hdue.mem_iff_toInt_le (h.bucket seconds) hnames).mpr hle

end Consistent
end StructuredStore
