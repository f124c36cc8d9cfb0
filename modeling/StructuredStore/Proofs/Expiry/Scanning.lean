import StructuredStore.Operation
import StructuredStore.Proofs.Engine.Execution
import StructuredStore.Proofs.Key.Bucket
import StructuredStore.Proofs.Store.Steps

/-!
# How far a scan for due buckets goes

A scan for due buckets stops at the first key that is read as a bucket beyond
its limit.  The keys of buckets are numerals of one width, so no bucket up to
the limit lies behind one beyond it; but a key that has a plus sign in the place
of its first digit is read as a bucket too, and lies in front of all of them.

Main results:

- `mem_visitRows_collectDue_iff`: what a scan has found when it stops.
- `mem_due_iff`: a bucket up to the limit is met unless such a key beyond the
  limit lies under the stem.
- `buckets_coded_in_order`: the order and the reading of the keys of buckets,
  and the scans over them.
- `sweep_stopped_by_sign`: a sweep that leaves an expired key.
-/

namespace StructuredStore

open Engine

/-! ## Fronts of sorted rows -/

/-- A row stands in the front of sorted rows that pass a test exactly if no row up
to it fails the test. -/
theorem Rows.mem_takeWhile_iff {rows : List Row} (h : Sorted rows) {test : Row → Bool} {row : Row} :
    row ∈ rows.takeWhile test ↔
      row ∈ rows ∧ ∀ other ∈ rows, ¬ row.1 < other.1 → test other = true := by
  induction rows with
  | nil => simp
  | cons first rows ih =>
      have htail := List.pairwise_cons.mp h
      cases hfirst : test first with
      | false =>
          rw [List.takeWhile_cons_of_neg (by simp [hfirst])]
          constructor
          · exact fun hrow => absurd hrow List.not_mem_nil
          · rintro ⟨hrow, hfront⟩
            have hnot : ¬ row.1 < first.1 := by
              rcases List.mem_cons.mp hrow with rfl | hrow
              · exact List.lt_irrefl row.1
              · exact fun hlt => List.lt_irrefl _ (List.lt_trans hlt (htail.1 row hrow))
            rw [hfront first List.mem_cons_self hnot] at hfirst
            cases hfirst
      | true =>
          rw [List.takeWhile_cons_of_pos hfirst, List.mem_cons, List.mem_cons, ih htail.2]
          constructor
          · rintro (rfl | ⟨hrow, hfront⟩)
            · refine ⟨Or.inl rfl, List.forall_mem_cons.mpr ⟨fun _ => hfirst, ?_⟩⟩
              exact fun other hother hnot => absurd (htail.1 other hother) hnot
            · exact ⟨Or.inr hrow, List.forall_mem_cons.mpr ⟨fun _ => hfirst, hfront⟩⟩
          · rintro ⟨rfl | hrow, hfront⟩
            · exact Or.inl rfl
            · exact Or.inr ⟨hrow, (List.forall_mem_cons.mp hfront).2⟩

namespace Expiry

/-! ## Where a scan stops -/

/-- Whether a scan for due buckets goes on behind a row: it is not read as a bucket
beyond the limit. -/
def goesOn (limit : Nat) (row : Row) : Bool :=
  (Key.bucketOrdinal? row.1).all fun ordinal => ordinal ≤ limit

/-- What a scan has found when it stops: the rows that are read as buckets in front
of the first one beyond the limit. -/
theorem mem_visitRows_collectDue_iff {limit : Nat} {rows : List Row} {found : List String}
    {name : String} :
    name ∈ Table.visitRows (collectDue limit) found rows ↔
      name ∈ found ∨ ∃ row ∈ rows.takeWhile (goesOn limit),
        row.1 = Key.ofText name ∧ Key.bucketOrdinal? row.1 ≠ none := by
  induction rows generalizing found with
  | nil => simp [Table.visitRows]
  | cons row rows ih =>
      rw [Table.visitRows, collectDue]
      cases hordinal : Key.bucketOrdinal? row.1 with
      | none =>
          have hgo : goesOn limit row = true := by rw [goesOn, hordinal]; rfl
          rw [List.takeWhile_cons_of_pos hgo]
          simp only [ih, List.exists_mem_cons_iff, hordinal, ne_eq, not_true_eq_false, and_false,
            false_or]
      | some ordinal =>
          by_cases hlimit : limit < ordinal
          · have hstop : ¬ goesOn limit row = true := by
              rw [goesOn, hordinal]
              simpa using hlimit
            rw [List.takeWhile_cons_of_neg hstop]
            simp [hlimit]
          · have hgo : goesOn limit row = true := by
              rw [goesOn, hordinal]
              simpa using hlimit
            have hname : name ∈ (Utf8.decode? row.1).toList ↔ row.1 = Key.ofText name := by
              rw [Option.mem_toList, Utf8.decode?_eq_some_iff, Key.ofText, eq_comm]
            rw [List.takeWhile_cons_of_pos hgo]
            simp only [hlimit, if_false, ih, List.mem_append, hname, List.exists_mem_cons_iff,
              hordinal, ne_eq, reduceCtorEq, not_false_eq_true, and_true]
            tauto

/-- A scan of sorted rows finds no bucket twice. -/
theorem nodup_visitRows_collectDue {limit : Nat} {rows : List Row} {found : List String}
    (hrows : Rows.Sorted rows) (hfound : found.Nodup)
    (hnew : ∀ name ∈ found, ∀ row ∈ rows, row.1 ≠ Key.ofText name) :
    (Table.visitRows (collectDue limit) found rows).Nodup := by
  induction rows generalizing found with
  | nil => exact hfound
  | cons row rows ih =>
      obtain ⟨hbehind, hrows⟩ := List.pairwise_cons.mp hrows
      have hrest : ∀ name ∈ found, ∀ other ∈ rows, other.1 ≠ Key.ofText name :=
        fun name hname other hother => hnew name hname other (List.mem_cons_of_mem _ hother)
      rw [Table.visitRows, collectDue]
      cases Key.bucketOrdinal? row.1 with
      | none => exact ih hrows hfound hrest
      | some ordinal =>
          by_cases hlimit : limit < ordinal
          · simpa [hlimit] using hfound
          simp only [hlimit, if_false]
          cases hdecode : Utf8.decode? row.1 with
          | none => exact ih hrows hfound hrest
          | some name =>
              have hname : Key.ofText name = row.1 := Utf8.encode_of_decode? hdecode
              refine ih hrows (List.nodup_cons.mpr ⟨fun hmem => ?_, hfound⟩) ?_
              · exact hnew name hmem row List.mem_cons_self hname.symm
              · refine List.forall_mem_cons.mpr ⟨fun other hother heq => ?_, hrest⟩
                have hlt := hbehind other hother
                rw [heq, hname] at hlt
                exact List.lt_irrefl _ hlt

/-! ## Which buckets are met -/

/-- A scan meets a bucket exactly if it lies within the limit and is there, and no
key with a plus sign is read as a bucket beyond the limit. -/
theorem mem_due_iff (table : Table) (limit : Nat) (seconds : Int64) :
    Key.bucket seconds ∈
        Table.visitRows (collectDue limit) [] (table.rowsUnder (Utf8.encode Key.bucketStem)) ↔
      Key.bucketOrdinal seconds ≤ limit ∧ table.get? (Key.ofText (Key.bucket seconds)) ≠ none ∧
        ∀ ordinal, limit < ordinal → ordinal < 10 ^ 19 →
          table.get? (Key.signedBucket ordinal) = none := by
  have hsorted := Table.sorted_rowsUnder table (Utf8.encode Key.bucketStem)
  have hread := Key.bucketOrdinal?_bucket seconds
  have hstem : Utf8.encode Key.bucketStem <+: Key.ofText (Key.bucket seconds) := by
    rw [Key.ofText, Key.bucket, Utf8.encode_append]
    exact List.prefix_append _ _
  rw [mem_visitRows_collectDue_iff]
  simp only [List.not_mem_nil, false_or]
  constructor
  · rintro ⟨row, htake, hname, _⟩
    obtain ⟨hrow, hfront⟩ := (Rows.mem_takeWhile_iff hsorted).mp htake
    obtain ⟨hget, _⟩ := (Table.mem_rowsUnder _ _ row).mp hrow
    rw [hname] at hget hfront
    refine ⟨?_, by simp [hget], fun ordinal hbeyond hordinal => ?_⟩
    · have hgo := hfront row hrow (by rw [hname]; exact List.lt_irrefl _)
      rw [goesOn, hname, hread] at hgo
      simpa using hgo
    · by_contra hthere
      obtain ⟨contents, hcontents⟩ := Option.ne_none_iff_exists'.mp hthere
      have hsigned : (Key.signedBucket ordinal, contents) ∈
          table.rowsUnder (Utf8.encode Key.bucketStem) :=
        (Table.mem_rowsUnder _ _ _).mpr ⟨hcontents, List.prefix_append _ _⟩
      have hgo := hfront _ hsigned fun hlt =>
        List.lt_irrefl _ (List.lt_trans hlt (Key.signedBucket_lt_bucket ordinal seconds))
      rw [goesOn, Key.bucketOrdinal?_signedBucket hordinal] at hgo
      have hle : ordinal ≤ limit := by simpa using hgo
      omega
  · rintro ⟨hlimit, hthere, hunsigned⟩
    obtain ⟨contents, hcontents⟩ := Option.ne_none_iff_exists'.mp hthere
    refine ⟨(Key.ofText (Key.bucket seconds), contents), ?_, rfl, by simp [hread]⟩
    refine (Rows.mem_takeWhile_iff hsorted).mpr
      ⟨(Table.mem_rowsUnder _ _ _).mpr ⟨hcontents, hstem⟩, fun other hother hnot => ?_⟩
    obtain ⟨hget, hother⟩ := (Table.mem_rowsUnder _ _ other).mp hother
    by_contra hstop
    obtain ⟨ordinal, hordinal, hbeyond⟩ :
        ∃ ordinal, Key.bucketOrdinal? other.1 = some ordinal ∧ limit < ordinal := by
      cases hread : Key.bucketOrdinal? other.1 with
      | none => simp [goesOn, hread] at hstop
      | some ordinal => exact ⟨ordinal, rfl, by simpa [goesOn, hread] using hstop⟩
    obtain ⟨start, rfl, hstart⟩ | ⟨hlt, hsigned⟩ := Key.eq_bucket_or_signed hother hordinal
    · -- A bucket beyond the limit lies behind those up to the limit.
      apply hnot
      rw [hstart, Key.ofText_bucket_lt_iff, ← Key.bucketOrdinal_lt_iff]
      omega
    · rw [hsigned, hunsigned ordinal hbeyond hlt] at hget
      cases hget

/-- Buckets lie in the order of their seconds, and their numbers are read back.
What is read as the number of a bucket stands behind the stem with twenty digits,
or with nineteen behind a plus sign.  A scan meets every bucket up to its limit,
unless a key with the sign is read as a bucket beyond the limit. -/
theorem buckets_coded_in_order (a b : Int64) (rest : Bytes) (ordinal : Nat) (table : Table)
    (limit : Nat) :
    (Key.ofText (Key.bucket a) < Key.ofText (Key.bucket b) ↔ a < b) ∧
    Key.bucketOrdinal? (Key.ofText (Key.bucket a)) = some (Key.bucketOrdinal a) ∧
    (Key.bucketOrdinal? (Utf8.encode Key.bucketStem ++ rest) = some ordinal ↔
      (ordinal < 2 ^ 64 ∧ rest = Numeral.digitBytes 20 ordinal) ∨
      (ordinal < 10 ^ 19 ∧ rest = 0x2b :: Numeral.digitBytes 19 ordinal)) ∧
    ∃ due,
      (Engine.visitUnder (Utf8.encode Key.bucketStem) (collectDue limit) []).run (ofTable table) =
        (.ok due, ofTable table) ∧
      ∀ seconds, Key.bucket seconds ∈ due ↔
        Key.bucketOrdinal seconds ≤ limit ∧ table.get? (Key.ofText (Key.bucket seconds)) ≠ none ∧
          ∀ ordinal, limit < ordinal → ordinal < 10 ^ 19 →
            table.get? (Utf8.encode Key.bucketStem ++ 0x2b :: Numeral.digitBytes 19 ordinal) =
              none := by
  refine ⟨?_, Key.bucketOrdinal?_bucket a, Key.bucketOrdinal?_eq_some_iff, ?_⟩
  · rw [Key.ofText_bucket_lt_iff, Int64.lt_iff_toInt_lt]
  · exact ⟨_, run_visitUnder table _ _ _, mem_due_iff table limit⟩

/-- A counter at the stem followed by a plus sign and nineteen digits: it is read
as a bucket, though no number has these digits, and lies beyond the limit of a
sweep, which leaves a bucket within the limit and the expired key in it. -/
theorem sweep_stopped_by_sign :
    let session : Session := ⟨.ofTable .empty, ⟨0⟩, ⟨60, by decide, by decide⟩, .none⟩
    let instant : Instant := .ofInt64 90000000000
    let now : Instant := .ofInt64 200000000000
    let signed := "__expiry__:+9999999999999999999"
    let limit := Key.bucketOrdinal (Int64.ofInt (session.width.ceil now))
    let table := (session.run [.operation (.increase signed 1), .operation (.set "k" .null),
      .operation (.expireAt "k" instant), .operation (.sweep now)]).2.engine.table
    Key.bucketOrdinal? (Key.ofText signed) = some 9999999999999999999 ∧
      Key.ofText signed ≠
        Utf8.encode Key.bucketStem ++ Numeral.digitBytes 20 9999999999999999999 ∧
      Key.bucketOrdinal (Int64.ofInt (session.width.ceil instant)) ≤ limit ∧
      table.get? (Key.ofText (session.width.bucket instant)) ≠ none ∧
      table.HasFrame (Key.ofText "k") ⟨.null, some instant⟩ := by
  intro session instant now signed limit table
  exact ⟨by decide +kernel, by decide +kernel, by decide +kernel, by decide +kernel,
    by decide +kernel⟩

end Expiry
end StructuredStore
