import StructuredStore.Proofs.Expiry.Due
import StructuredStore.Proofs.Key.Collision

/-!
# Buckets in order

Operations on unreserved keys may leave anything at these, but every bucket
stays absent or a list of names that a sweep can take.  How many operations
there were, and what the keys hold, does not matter: a bucket that is full, or a
name that is too long, is refused and changes no list.

Main results:

- `Shelved`: every bucket is absent or a list of unreserved names.
- `Shelved.of_key`, `Shelved.of_bucket`: changes of one key or one bucket.
- `Shelved.ends_enlist`: a name is listed, or refused.
-/

namespace StructuredStore

open Engine Store Expiry

/-! ## Rows of keys -/

namespace Key

/-- Nothing that an unreserved key owns is read as a bucket: an item has a
second colon. -/
theorem bucketOrdinal?_of_owns {key : String} {physical : Bytes}
    (hkey : isReserved key = false) (howns : Owns key physical)
    (hstem : Utf8.encode bucketStem <+: physical) : bucketOrdinal? physical = none := by
  cases hordinal : bucketOrdinal? physical with
  | none => rfl
  | some ordinal =>
      exfalso
      obtain ⟨rest, rfl⟩ := hstem
      have hcolon := (numeral_of_bucketOrdinal? hordinal).2
      rcases howns with hself | ⟨marker, tail, htail⟩
      · have hreserved : isReserved key = true := by
          rw [isReserved, List.isPrefixOf_iff_prefix]
          exact ⟨rest, hself⟩
        rw [hkey] at hreserved
        cases hreserved
      · have hcount := congrArg (List.count 0x3a) htail
        simp [itemStem_eq, encode_bucketStem, List.count_append, List.count_cons,
          List.count_eq_zero.mpr hcolon, List.count_eq_zero.mpr colon_notMem_bucketName]
          at hcount
        omega

end Key

/-! ## The invariant -/

/-- Whether every bucket is absent or a list of names of unreserved keys that
can be written; `names` says which.  What is read as a bucket is one. -/
structure Shelved (table : Table) (names : Int64 → List String) : Prop where
  bucket : ∀ physical, table.get? physical ≠ none → Utf8.encode Key.bucketStem <+: physical →
    ∀ ordinal, Key.bucketOrdinal? physical = some ordinal →
      ∃ seconds, physical = Key.ofText (Key.bucket seconds)
  shelf : ∀ seconds, ∃ steps, Listed table (Key.bucket seconds) steps (names seconds)
  listed : ∀ seconds, ∀ name ∈ names seconds, Key.isReserved name = false ∧ Writable name

variable {table after : Table} {names : Int64 → List String} {key bucket name : String}
  {seconds : Int64} {listed : List String}

theorem shelved_empty : Shelved .empty fun _ => [] := by
  refine ⟨fun physical hget => absurd (Table.get?_empty physical) hget, fun seconds => ?_,
    fun _ _ hmem => by cases hmem⟩
  exact ⟨0, listed_of_vacant (fun physical _ => Table.get?_empty physical) 0⟩

namespace Shelved

/-- The rows of an unreserved key may change. -/
theorem of_key (h : Shelved table names) (hkey : Key.isReserved key = false)
    (hagree : table.AgreeOff (Key.Owns key) after) : Shelved after names := by
  refine ⟨fun physical hget hstem ordinal hordinal => ?_, fun seconds => ?_, h.listed⟩
  · by_cases howns : Key.Owns key physical
    · rw [Key.bucketOrdinal?_of_owns hkey howns hstem] at hordinal
      cases hordinal
    · rw [hagree physical howns] at hget
      exact h.bucket physical hget hstem ordinal hordinal
  · obtain ⟨steps, hshelf⟩ := h.shelf seconds
    refine ⟨steps, hshelf.congr fun physical howns => hagree physical fun hother => ?_⟩
    exact Key.not_owns_bucket hkey hother howns

/-- A bucket changes, and is a list of names again. -/
theorem of_bucket {steps : Nat} (h : Shelved table names)
    (hagree : table.AgreeOff (Key.Owns (Key.bucket seconds)) after)
    (hafter : Listed after (Key.bucket seconds) steps listed)
    (hlisted : ∀ name ∈ listed, Key.isReserved name = false ∧ Writable name) :
    Shelved after (Function.update names seconds listed) := by
  refine ⟨fun physical hget hstem ordinal hordinal => ?_, fun other => ?_, fun other => ?_⟩
  · by_cases howns : Key.Owns (Key.bucket seconds) physical
    · exact Key.exists_bucket_of_bucketOrdinal? (.bucket seconds) howns hstem hordinal
    · rw [hagree physical howns] at hget
      exact h.bucket physical hget hstem ordinal hordinal
  · by_cases hsame : other = seconds
    · subst hsame
      rw [Function.update_self]
      exact ⟨steps, hafter⟩
    · have hne : Key.bucket other ≠ Key.bucket seconds := fun heq =>
        hsame (Key.bucket_injective heq)
      rw [Function.update_of_ne hsame]
      obtain ⟨steps, hshelf⟩ := h.shelf other
      exact ⟨steps, hshelf.congr (hagree.other (.bucket seconds) (.bucket other) hne)⟩
  · by_cases hsame : other = seconds
    · subst hsame
      rw [Function.update_self]
      exact hlisted
    · rw [Function.update_of_ne hsame]
      exact h.listed other

/-- Under the stem of the buckets only their frames are read as buckets. -/
theorem exists_bucket (h : Shelved table names) {row : Row}
    (hrow : row ∈ table.rowsUnder (Utf8.encode Key.bucketStem)) (ordinal : Nat)
    (hordinal : Key.bucketOrdinal? row.1 = some ordinal) :
    ∃ seconds, row.1 = Key.ofText (Key.bucket seconds) := by
  obtain ⟨hget, hstem⟩ := (Table.mem_rowsUnder _ _ row).mp hrow
  exact h.bucket row.1 (by rw [hget]; exact Option.some_ne_none _) hstem ordinal hordinal

end Shelved

/-! ## Enlisting -/

namespace Expiry

/-- A list of names is one after some number of steps. -/
theorem exists_listed {handle : ListHandle} {items : List Bytes} {listed : List String}
    (h : Deque.Stored table bucket handle none items)
    (hholding : Deque.Holding items (listed.map .text)) :
    ∃ steps, Listed table bucket steps listed := by
  have hlow := handle.head.le_toInt
  have hhigh := handle.tail.toInt_lt
  refine ⟨listed.length + 9223372036854775808, Or.inr ⟨handle, items, h, hholding, ?_, ?_, ?_⟩⟩
  · omega
  · omega
  · omega

/-- A list has fewer names than a 64-bit length can count. -/
theorem Listed.length_lt {steps : Nat} (h : Listed table bucket steps listed) :
    listed.length < 9223372036854775808 := by
  rcases h with ⟨_, rfl⟩ | ⟨handle, items, hstored, hholding, _⟩
  · decide
  · have hlength := hstored.describes.length
    have hhigh := handle.length.toInt_lt
    have hcount := hholding.length_eq
    rw [List.length_map] at hcount
    omega

/-- Whatever a bucket lists, a name is listed behind it, or refused. -/
theorem ends_enlist_listed {steps : Nat} (h : Listed table bucket steps listed) (name : String) :
    Ends table (enlist bucket name) fun outcome after =>
      (∃ a, outcome = .ok a ∧ Writable name ∧
        ∃ steps, Listed after bucket steps (listed ++ [name])) ∨
      (∃ e, outcome = .error e ∧ ∃ steps, Listed after bucket steps listed) := by
  rcases h with ⟨hvacant, rfl⟩ | ⟨handle, items, hstored, hholding, _⟩
  · apply (ends_enlist (listed_of_vacant hvacant 0) (by decide) name).conseq
    intro outcome after hafter
    cases hafter with
    | listed hwritable hlisted => exact Or.inl ⟨_, rfl, hwritable, _, hlisted⟩
    | refused _ hlisted => exact Or.inr ⟨_, rfl, _, hlisted⟩
  · have hpush := Deque.ends_push hstored (.text name) .right
    obtain ⟨outcome, after, hrun, hafter⟩ := hpush
    rw [← Deque.run_pushRightCreating hstored] at hrun
    cases outcome with
    | error e =>
        rw [hafter.1] at hrun
        exact .bind_error hrun (Or.inr ⟨e, rfl, exists_listed hstored hholding⟩)
    | ok length =>
        obtain ⟨_, _, item, hitem, hgrown⟩ := hafter
        refine .bind_run hrun (.pure (Or.inl ⟨_, rfl, ⟨item, hitem⟩, exists_listed hgrown ?_⟩))
        have hdecode := Frame.decode_encode hitem trivial
        unfold Deque.Holding at hholding ⊢
        simp [Deque.End.add, hholding, hdecode]

end Expiry

namespace Shelved

/-- An unreserved name is listed in a bucket, or the buckets stay as they are. -/
theorem ends_enlist (h : Shelved table names) (hname : Key.isReserved name = false)
    (seconds : Int64) :
    Ends table (enlist (Key.bucket seconds) name) fun outcome after =>
      table.AgreeOff (Key.Owns (Key.bucket seconds)) after ∧
      ((∃ a, outcome = .ok a ∧
        Shelved after (Function.update names seconds (names seconds ++ [name]))) ∨
      (∃ e, outcome = .error e ∧ Shelved after names)) := by
  obtain ⟨steps, hshelf⟩ := h.shelf seconds
  apply ((ends_enlist_listed hshelf name).confined (confined_enlist _ name)).conseq
  intro outcome after ⟨hafter, hagree⟩
  refine ⟨hagree, ?_⟩
  rcases hafter with ⟨a, hok, hwritable, steps, hlisted⟩ | ⟨e, herror, steps, hlisted⟩
  · refine Or.inl ⟨a, hok, h.of_bucket hagree hlisted fun other hother => ?_⟩
    rcases List.mem_append.mp hother with hold | hnew
    · exact h.listed seconds other hold
    · rw [List.mem_singleton.mp hnew]
      exact ⟨hname, hwritable⟩
  · have hsame := h.of_bucket hagree hlisted (h.listed seconds)
    rw [Function.update_eq_self] at hsame
    exact Or.inr ⟨e, herror, hsame⟩

end Shelved
end StructuredStore
