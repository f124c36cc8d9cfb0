import StructuredStore.Proofs.Expiry.Buckets
import StructuredStore.Proofs.Store.Preservation

/-!
# Consistent stores

A store is consistent if every row belongs to a key without colon or to a
bucket, and all of these hold what they should.  An operation changes the rows
of one key, and one that sets an expiry also those of one bucket; all others
are as they were, since no two of them have rows in common.

Main results:

- `Consistent`: the invariant of whole runs.
- `Consistent.of_key`, `Consistent.of_bucket`: changes of one key or one bucket.
- `Consistent.ends_perform`, `Consistent.ends_setAt`: operations on one key, and
  those that set its expiry.
-/

namespace StructuredStore

open Engine Store Expiry

/-! ## Rows of other keys -/

section Others

variable {table after : Table} {a b : String}

/-- A change of one key's rows is none of another one's. -/
theorem Table.AgreeOff.other (h : table.AgreeOff (Key.Owns a) after) (ha : Key.Logical a)
    (hb : Key.Logical b) (hne : b ≠ a) (physical : Bytes) (howns : Key.Owns b physical) :
    after.get? physical = table.get? physical :=
  h physical fun howns' => hne (hb.eq_of_owns ha howns howns')

theorem Table.expiryOf_congr (h : after.get? (Key.ofText a) = table.get? (Key.ofText a)) :
    after.expiryOf a = table.expiryOf a := by
  rw [Table.expiryOf, Table.expiryOf, h]

end Others

/-! ## The number of keys -/

/-- The number of rows of keys without colon, their items aside. -/
def Table.population (table : Table) : Nat :=
  table.rows.countP fun row => 0x3a ∉ row.1

section Population

variable {table after : Table} {key : String}

theorem Table.population_congr
    (h : ∀ physical, 0x3a ∉ physical → after.get? physical = table.get? physical) :
    after.population = table.population := by
  have hrows : after.rows.filter (fun row => 0x3a ∉ row.1) =
      table.rows.filter fun row => 0x3a ∉ row.1 := by
    apply Rows.Sorted.eq_of_mem_iff (after.sorted.filter _) (table.sorted.filter _)
    rintro ⟨physical, contents⟩
    simp only [List.mem_filter, mem_rows_iff, decide_eq_true_eq]
    exact and_congr_left fun hcolon => by rw [h physical hcolon]
  rw [population, population, List.countP_eq_length_filter, hrows, List.countP_eq_length_filter]

/-- A key without colon that is removed is one less. -/
theorem Table.population_erase {physical contents : Bytes} (hcolon : 0x3a ∉ physical)
    (hget : table.get? physical = some contents) :
    (table.erase physical).population + 1 = table.population := by
  rw [population, population, (Rows.erase_perm hget).countP_eq,
    List.countP_cons_of_pos (by simpa using hcolon), erase]

/-- What a key owns beside its own row has a colon. -/
theorem Key.Owns.eq_or_colon {physical : Bytes} (h : Owns key physical) :
    physical = ofText key ∨ 0x3a ∈ physical := by
  obtain ⟨tail, rfl | ⟨marker, rest, rfl⟩, rfl⟩ := h.exists_tail
  · exact Or.inl (List.append_nil _)
  · exact Or.inr (by simp)

/-- A change of a bucket leaves the number of keys. -/
theorem Table.AgreeOff.population_bucket {seconds : Int64}
    (h : table.AgreeOff (Key.Owns (Key.bucket seconds)) after) :
    after.population = table.population := by
  apply population_congr
  intro physical hcolon
  apply h
  intro howns
  rcases howns.eq_or_colon with rfl | hmem
  · exact hcolon (by simp [Key.ofText_bucket])
  · exact hcolon hmem

/-- A key that is removed with its items is one less. -/
theorem Table.AgreeOff.population_removed (h : table.AgreeOff (Key.Owns key) after)
    (hkey : Key.ColonFree key) (hbefore : table.get? (Key.ofText key) ≠ none)
    (hafter : after.get? (Key.ofText key) = none) :
    after.population + 1 = table.population := by
  obtain ⟨contents, hget⟩ := Option.ne_none_iff_exists'.mp hbefore
  rw [← population_erase hkey.notMem hget]
  congr 1
  apply population_congr
  intro physical hcolon
  by_cases hself : Key.ofText key = physical
  · rw [← hself, hafter, get?_erase_self]
  · rw [get?_erase_of_ne table hself]
    apply h
    intro howns
    rcases howns.eq_or_colon with rfl | hmem
    · exact hself rfl
    · exact hcolon hmem

end Population

/-! ## The invariant -/

/-- Whether a table is what a number of operations on keys without colon can
lead to; `names` says which names each bucket lists. -/
structure Consistent (table : Table) (steps : Nat) (names : Int64 → List String) : Prop where
  owned : ∀ physical, table.get? physical ≠ none →
    ∃ key, Key.Logical key ∧ Key.Owns key physical
  key : ∀ key, Key.ColonFree key → Holds table key steps (table.expiryOf key)
  bucket : ∀ seconds, Listed table (Key.bucket seconds) steps (names seconds)
  listed : ∀ seconds, ∀ name ∈ names seconds, Key.ColonFree name ∧ Writable name

theorem consistent_empty : Consistent .empty 0 fun _ => [] := by
  have hvacant : ∀ key, Table.empty.Vacant key := fun key physical _ => Table.get?_empty physical
  refine ⟨fun physical hget => absurd (Table.get?_empty physical) hget, fun key _ => ?_,
    fun seconds => listed_of_vacant (hvacant _) 0, fun _ _ hmem => by cases hmem⟩
  rw [Table.expiryOf_absent (Table.get?_empty _)]
  exact .of_empty key 0

namespace Consistent

variable {table after : Table} {steps more : Nat} {names : Int64 → List String} {key : String}

theorem mono (h : Consistent table steps names) (hle : steps ≤ more) :
    Consistent table more names :=
  ⟨h.owned, fun key hkey => (h.key key hkey).mono hle, fun seconds => (h.bucket seconds).mono hle,
    h.listed⟩

/-- A key changes, and remains consistent. -/
theorem of_key {expireAt : Option Instant} (h : Consistent table steps names)
    (hkey : Key.ColonFree key) (hagree : table.AgreeOff (Key.Owns key) after)
    (hle : steps ≤ more) (hafter : Holds after key more expireAt) :
    Consistent after more names := by
  constructor
  · intro physical hget
    by_cases howns : Key.Owns key physical
    · exact ⟨key, Or.inl hkey, howns⟩
    · rw [hagree physical howns] at hget
      exact h.owned physical hget
  · intro other hother
    by_cases hsame : other = key
    · subst hsame
      rw [hafter.expiryOf_eq]
      exact hafter
    · have hrows := hagree.other (Or.inl hkey) (Or.inl hother) hsame
      rw [Table.expiryOf_congr (hrows _ (.self other))]
      exact ((h.key other hother).congr hrows).mono hle
  · intro seconds
    have hrows := hagree.other (Or.inl hkey) (.bucket seconds) (hkey.ne_bucket seconds).symm
    exact ((h.bucket seconds).congr hrows).mono hle
  · exact h.listed

/-- A bucket changes, and still lists writable names of keys. -/
theorem of_bucket {seconds : Int64} {listed : List String} (h : Consistent table steps names)
    (hagree : table.AgreeOff (Key.Owns (Key.bucket seconds)) after) (hle : steps ≤ more)
    (hafter : Listed after (Key.bucket seconds) more listed)
    (hlisted : ∀ name ∈ listed, Key.ColonFree name ∧ Writable name) :
    Consistent after more (Function.update names seconds listed) := by
  constructor
  · intro physical hget
    by_cases howns : Key.Owns (Key.bucket seconds) physical
    · exact ⟨_, .bucket seconds, howns⟩
    · rw [hagree physical howns] at hget
      exact h.owned physical hget
  · intro other hother
    have hrows := hagree.other (.bucket seconds) (Or.inl hother) (hother.ne_bucket seconds)
    rw [Table.expiryOf_congr (hrows _ (.self other))]
    exact ((h.key other hother).congr hrows).mono hle
  · intro other
    by_cases hsame : other = seconds
    · subst hsame
      rw [Function.update_self]
      exact hafter
    · have hne : Key.bucket other ≠ Key.bucket seconds := fun heq =>
        hsame (Key.bucket_injective heq)
      have hrows := hagree.other (.bucket seconds) (.bucket other) hne
      rw [Function.update_of_ne hsame]
      exact ((h.bucket other).congr hrows).mono hle
  · intro other name hname
    by_cases hsame : other = seconds
    · subst hsame
      rw [Function.update_self] at hname
      exact hlisted name hname
    · rw [Function.update_of_ne hsame] at hname
      exact h.listed other name hname

/-- A bucket lists one more name. -/
theorem of_enlisted {seconds : Int64} (h : Consistent table steps names)
    (hkey : Key.ColonFree key ∧ Writable key)
    (hagree : table.AgreeOff (Key.Owns (Key.bucket seconds)) after) (hle : steps ≤ more)
    (hafter : Listed after (Key.bucket seconds) more (names seconds ++ [key])) :
    Consistent after more (Function.update names seconds (names seconds ++ [key])) := by
  apply h.of_bucket hagree hle hafter
  intro name hname
  rcases List.mem_append.mp hname with hname | hname
  · exact h.listed seconds name hname
  · rw [List.mem_singleton.mp hname]
    exact hkey

end Consistent

/-- What the buckets list once one of them lists one more name. -/
theorem mem_enlisted_iff {names : Int64 → List String} {seconds other : Int64}
    {key name : String} :
    name ∈ Function.update names seconds (names seconds ++ [key]) other ↔
      name ∈ names other ∨ other = seconds ∧ name = key := by
  by_cases hsame : other = seconds
  · subst hsame
    rw [Function.update_self, List.mem_append, List.mem_singleton, and_iff_right rfl]
  · rw [Function.update_of_ne hsame]
    exact (or_iff_left fun h => hsame h.1).symm

namespace Consistent

variable {table : Table} {steps : Nat} {names : Int64 → List String} {key : String}

/-! ## Operations -/

/-- An operation on one key that sets no expiry keeps the store consistent, and
the expiry of the key, unless it clears that. -/
theorem ends_perform (h : Consistent table steps names)
    (hsteps : steps + 1 < 9223372036854775808) (env : Environment) {op : Operation}
    (hop : op.key? = some key) (hkey : Key.ColonFree key) (hschedules : op.schedules = false) :
    Ends table (op.perform env) fun _ after => Consistent after (steps + 1) names ∧
      table.AgreeOff (Key.Owns key) after ∧
      (after.expiryOf key = table.expiryOf key ∨ after.expiryOf key = none) := by
  have hends := (h.key key hkey).ends_perform hsteps env hop hschedules
  refine (hends.confined (Operation.confined_perform env hop hschedules)).conseq ?_
  rintro outcome after ⟨⟨next, hnext, hafter⟩, hagree⟩
  rw [hafter.expiryOf_eq]
  exact ⟨h.of_key hkey hagree (Nat.le_succ steps) hafter, hagree, hnext⟩

end Consistent

/-- What setting the expiry of a key leads to: a consistent store in which the
other keys have their expiries and all names are still listed.  The key has its
old expiry, or the new one and, if its name can be written, a place in the
bucket of the instant. -/
def Scheduled (table : Table) (steps : Nat) (names : Int64 → List String) (key : String)
    (width : BucketWidth) (instant : Instant) (after : Table) : Prop :=
  ∃ names', Consistent after (steps + 1) names' ∧
    (∀ other, Key.ColonFree other → other ≠ key → after.expiryOf other = table.expiryOf other) ∧
    (∀ seconds, ∀ name ∈ names seconds, name ∈ names' seconds) ∧
    (after.expiryOf key = table.expiryOf key ∨
      after.expiryOf key = Frame.asStored (some instant) ∧
        (Writable key → key ∈ names' (Int64.ofInt (width.ceil instant))))

namespace Consistent

variable {table : Table} {steps : Nat} {names : Int64 → List String} {key : String}

theorem scheduled_same (h : Consistent table steps names) (key : String) (width : BucketWidth)
    (instant : Instant) : Scheduled table steps names key width instant table :=
  ⟨names, h.mono (Nat.le_succ steps), fun _ _ _ => rfl, fun _ _ hmem => hmem, Or.inl rfl⟩

/-- An expiry is set and its key enlisted, or nothing happens. -/
theorem ends_setAt (h : Consistent table steps names)
    (hsteps : steps + 1 < 9223372036854775808) (hkey : Key.ColonFree key) (width : BucketWidth)
    (now instant : Instant) :
    Ends table (Expiry.setAt width now key instant) fun _ after =>
      Scheduled table steps names key width instant after := by
  unfold Expiry.setAt
  by_cases hpast : instant ≤ now
  · rw [if_pos hpast]
    exact .pure (h.scheduled_same key width instant)
  rw [if_neg hpast]
  refine .bind (((h.key key hkey).ends_stamp instant).confined (confined_stamp key instant)) ?_ ?_
  · rintro e between ⟨rfl, _⟩
    exact h.scheduled_same key width instant
  rintro _ stamped ⟨hstamped, hagree⟩
  have hexpiry : stamped.expiryOf key = Frame.asStored (some instant) := hstamped.expiryOf_eq
  have hconsistent := h.of_key hkey hagree le_rfl hstamped
  have hothers : ∀ other, Key.ColonFree other → other ≠ key →
      stamped.expiryOf other = table.expiryOf other := fun other hother hne =>
    Table.expiryOf_congr (hagree.other (Or.inl hkey) (Or.inl hother) hne _ (.self other))
  -- Enlisting leaves the frames of keys alone.
  have hscheduled : ∀ {after : Table} {names' : Int64 → List String},
      stamped.AgreeOff (Key.Owns (width.bucket instant)) after →
      Consistent after (steps + 1) names' →
      (∀ seconds, ∀ name ∈ names seconds, name ∈ names' seconds) →
      (Writable key → key ∈ names' (Int64.ofInt (width.ceil instant))) →
      Scheduled table steps names key width instant after := by
    intro after names' hbucket hafter hlisted hentry
    have hframes : ∀ other, Key.ColonFree other →
        after.expiryOf other = stamped.expiryOf other := fun other hother =>
      Table.expiryOf_congr
        (hbucket.other (.bucket _) (Or.inl hother) (hother.ne_bucket _) _ (.self other))
    refine ⟨names', hafter, fun other hother hne => ?_, hlisted, Or.inr ⟨?_, hentry⟩⟩
    · rw [hframes other hother, hothers other hother hne]
    · rw [hframes key hkey, hexpiry]
  refine .bind ((ends_enlist (hconsistent.bucket (Int64.ofInt (width.ceil instant))) hsteps
    key).confined (confined_enlist (width.bucket instant) key)) ?_ ?_
  · rintro e after ⟨henlisted, hbucket⟩
    cases henlisted with
    | refused hwritable hlisted =>
        have hafter := hconsistent.of_bucket hbucket le_rfl hlisted (hconsistent.listed _)
        rw [Function.update_eq_self] at hafter
        exact hscheduled hbucket (hafter.mono (Nat.le_succ steps)) (fun _ _ hmem => hmem)
          fun h => absurd h hwritable
  · rintro _ after ⟨henlisted, hbucket⟩
    cases henlisted with
    | listed hwritable hlisted =>
        have hafter :=
          hconsistent.of_enlisted ⟨hkey, hwritable⟩ hbucket (Nat.le_succ steps) hlisted
        refine .pure (hscheduled hbucket hafter ?_ fun _ => ?_)
        · exact fun seconds name hmem => mem_enlisted_iff.mpr (Or.inl hmem)
        · exact mem_enlisted_iff.mpr (Or.inr ⟨rfl, rfl⟩)

end Consistent
end StructuredStore
