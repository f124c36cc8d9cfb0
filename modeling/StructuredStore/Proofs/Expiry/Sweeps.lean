import StructuredStore.Proofs.Expiry.Shelves
import StructuredStore.Proofs.Expiry.Slices
import StructuredStore.Proofs.Store.Removals

/-!
# What a sweep leaves of a key

A sweep takes the names out of all buckets up to the present one.  A key whose
expiry has come is removed if one of these lists it.  Every other key keeps its
row, but it loses its places in these buckets, unless one of them is the bucket
of the expiry that it stores.  Which bucket it was enlisted in, and with which
width, plays no part.

Main results:

- `Plain`: the keys whose fate is known, whatever lies at the others.
- `Refiles`, `ends_settleEntries`: the names taken out of one bucket.
- `Sweeps`, `Shelved.ends_sweep`: what a sweep leaves of every plain key.
- `Session.run_shelved`: buckets are in order after every run.
-/

namespace StructuredStore

open Engine Store

namespace Expiry

variable {table between after : Table} {names names' names'' : Int64 → List String}
  {width : BucketWidth} {now : Instant} {key name bucket : String} {gone more : Prop}
  {seconds : Int64} {entries : List String}

/-! ## Plain keys -/

/-- Whether a key has no colon, and its row, if there is one, can be read. -/
structure Plain (table : Table) (key : String) : Prop where
  colonFree : Key.ColonFree key
  readable : table.get? (Key.ofText key) = none ∨ ∃ frame, table.HasFrame (Key.ofText key) frame

namespace Leaves

theorem refl (table : Table) (key : String) (h : ¬ gone) : Leaves table key gone table :=
  ⟨fun hgone => absurd hgone h, fun _ => rfl⟩

theorem congr (h : Leaves table key gone after) (hiff : gone ↔ more) :
    Leaves table key more after :=
  ⟨fun hmore => h.absent (hiff.mpr hmore), fun hmore => h.same fun hgone => hmore (hiff.mp hgone)⟩

theorem trans (hfirst : Leaves table key gone between) (hsecond : Leaves between key more after) :
    Leaves table key (gone ∨ more) after := by
  constructor
  · intro hgone
    by_cases hmore : more
    · exact hsecond.absent hmore
    · rw [hsecond.same hmore]
      exact hfirst.absent (hgone.resolve_right hmore)
  · intro hnot
    rw [hsecond.same fun hmore => hnot (Or.inr hmore),
      hfirst.same fun hgone => hnot (Or.inl hgone)]

/-- A change of another key leaves a key without colon as it is. -/
theorem of_agreeOff (hkey : Key.ColonFree key) (hne : key ≠ name)
    (hagree : table.AgreeOff (Key.Owns name) after) : Leaves table key False after :=
  ⟨fun h => h.elim, fun _ => hagree _ fun howns => hne (hkey.eq_of_owns howns).symm⟩

/-- A plain key stays plain. -/
theorem plain (h : Leaves table key gone after) (hkey : Plain table key) : Plain after key := by
  refine ⟨hkey.colonFree, ?_⟩
  by_cases hgone : gone
  · exact Or.inl (h.absent hgone)
  · have hsame := h.same hgone
    rcases hkey.readable with habsent | ⟨frame, hframe⟩
    · exact Or.inl (hsame.trans habsent)
    · exact Or.inr ⟨frame, hframe.congr hsame⟩

end Leaves

/-! ## Single names -/

/-- A plain key is removed if its expiry has come, and is to go back if that is
still to come in the bucket's slice of time. -/
theorem Plain.ends_settle (hkey : Plain table key) (width : BucketWidth) (now : Instant)
    (bucket : String) :
    Ends table (settle width now bucket key) fun outcome after =>
      Leaves table key (hasCome now (table.expiryOf key) = true) after ∧
      (outcome = .ok .notDue ↔ goesBack width now bucket (table.expiryOf key) = true) := by
  rcases hkey.readable with habsent | ⟨⟨value, expireAt⟩, hframe⟩
  · have hexpiry := Table.expiryOf_absent habsent
    refine .bind_run (run_read_none habsent) (.pure ?_)
    simp [hexpiry, hasCome, goesBack, Leaves.refl]
  · refine .bind_run (run_read hframe) ?_
    rw [hframe.expiryOf_eq]
    cases expireAt with
    | none => exact .pure (by simp [hasCome, goesBack, Leaves.refl])
    | some instant =>
        dsimp only
        by_cases hcome : instant ≤ now
        · rw [if_pos hcome]
          apply Ends.bind (Store.ends_purge table key value)
          · intro e between hpurged
            cases hpurged.1
          · intro _ between hpurged
            refine .pure ⟨⟨fun _ => hpurged.2, fun hnot => ?_⟩, by simp [goesBack, hcome]⟩
            simp [hasCome, hcome] at hnot
        · rw [if_neg hcome]
          have hstays : Leaves table key (hasCome now (some instant) = true) table :=
            .refl table key (by simp [hasCome, hcome])
          by_cases hbucket : width.bucket instant = bucket
          · rw [if_pos hbucket]
            exact .pure ⟨hstays, by simp [goesBack, hcome, hbucket]⟩
          · rw [if_neg hbucket]
            exact .pure ⟨hstays, by simp [goesBack, hcome, hbucket]⟩

end Expiry

open Expiry

/-- A name is settled: the buckets stay as they are, and so does every plain
key but the one with this name. -/
theorem Shelved.ends_settle {table : Table} {names : Int64 → List String} {name : String}
    (h : Shelved table names) (hname : Key.isReserved name = false) (width : BucketWidth)
    (now : Instant) (bucket : String) :
    Ends table (settle width now bucket name) fun outcome after =>
      Shelved after names ∧ table.AgreeOff (Key.Owns name) after ∧
      ∀ key, Plain table key →
        Leaves table key (key = name ∧ hasCome now (table.expiryOf key) = true) after ∧
        (key = name → (outcome = .ok .notDue ↔
          goesBack width now bucket (table.expiryOf key) = true)) := by
  obtain ⟨outcome, after, hrun, hagree⟩ := (confined_settle width now bucket name).run_ofTable table
  refine .of_run hrun ⟨h.of_key hname hagree, hagree, fun key hkey => ?_⟩
  by_cases hsame : key = name
  · subst hsame
    obtain ⟨_, _, hrun', hleaves, hback⟩ := hkey.ends_settle width now bucket
    cases hrun.symm.trans hrun'
    exact ⟨hleaves.congr (by simp), fun _ => hback⟩
  · exact ⟨(Leaves.of_agreeOff hkey.colonFree hsame hagree).congr (by simp [hsame]),
      fun heq => absurd heq hsame⟩

/-! ## Names of one bucket -/

namespace Expiry

variable {table between after : Table} {names names' names'' : Int64 → List String}
  {width : BucketWidth} {now : Instant} {name : String} {seconds : Int64} {entries : List String}

/-- What settling names that were taken out of a bucket leads to: every plain key
among them whose expiry is still to come in the bucket's slice goes back, and
every one whose expiry has come is removed. -/
structure Refiles (width : BucketWidth) (now : Instant) (table : Table)
    (names : Int64 → List String) (seconds : Int64) (entries : List String) (after : Table)
    (names' : Int64 → List String) : Prop where
  shelved : Shelved after names'
  others : ∀ other, other ≠ seconds → names' other = names other
  /-- The indices of the bucket's list start anew, so there is room. -/
  tight : Listed after (Key.bucket seconds) (names' seconds).length (names' seconds)
  count : (names' seconds).length ≤ (names seconds).length + entries.length
  back : ∀ key, Plain table key → (key ∈ names' seconds ↔ key ∈ names seconds ∨
    key ∈ entries ∧ goesBack width now (Key.bucket seconds) (table.expiryOf key) = true)
  leaves : ∀ key, Plain table key →
    Leaves table key (key ∈ entries ∧ hasCome now (table.expiryOf key) = true) after

namespace Refiles

theorem nil (h : Shelved table names)
    (htight : Listed table (Key.bucket seconds) (names seconds).length (names seconds)) :
    Refiles width now table names seconds [] table names :=
  ⟨h, fun _ _ => rfl, htight, Nat.le_refl _, by simp, fun key _ => .refl table key (by simp)⟩

/-- Names are settled one after the other. -/
theorem cons (hfirst : Refiles width now table names seconds [name] between names')
    (hrest : Refiles width now between names' seconds entries after names'') :
    Refiles width now table names seconds (name :: entries) after names'' := by
  refine ⟨hrest.shelved, fun other hother => ?_, hrest.tight, ?_, fun key hkey => ?_,
    fun key hkey => ?_⟩
  · rw [hrest.others other hother, hfirst.others other hother]
  · have hone := hfirst.count
    have hmore := hrest.count
    rw [List.length_cons, List.length_nil] at hone
    rw [List.length_cons]
    omega
  · have hleaves := hfirst.leaves key hkey
    rw [hrest.back key (hleaves.plain hkey), hfirst.back key hkey,
      hleaves.goesBack_eq (fun h => h.2) width _, List.mem_singleton, List.mem_cons]
    tauto
  · have hleaves := hfirst.leaves key hkey
    have hcome := hleaves.or_hasCome fun h => h.2
    apply (hleaves.trans (hrest.leaves key (hleaves.plain hkey))).congr
    rw [List.mem_singleton, List.mem_cons] at *
    tauto

end Refiles

/-- One name that was taken out of a bucket is settled. -/
theorem ends_settleEntry_shelved (h : Shelved table names)
    (htight : Listed table (Key.bucket seconds) (names seconds).length (names seconds))
    (hname : Key.isReserved name = false ∧ Writable name)
    (hroom : (names seconds).length + 1 < 9223372036854775808) :
    Ends table (settleEntry width now (Key.bucket seconds) (.text name)) fun outcome after =>
      (∃ report, outcome = .ok report) ∧
        ∃ names', Refiles width now table names seconds [name] after names' := by
  apply ends_unbroken_bind (unbroken_settle _ _ _ _)
    (h.ends_settle hname.1 width now (Key.bucket seconds))
  intro result between ⟨hshelved, hagree, hkeys⟩
  have htight' : Listed between (Key.bucket seconds) (names seconds).length (names seconds) :=
    htight.congr fun physical howns =>
      hagree physical fun hother => Key.not_owns_bucket hname.1 hother howns
  have hleaves : ∀ key, Plain table key →
      Leaves table key (key ∈ [name] ∧ hasCome now (table.expiryOf key) = true) between :=
    fun key hkey => (hkeys key hkey).1.congr (by simp)
  -- A name that does not go back.
  have hdropped : result ≠ .ok .notDue →
      Refiles width now table names seconds [name] between names := by
    intro hnot
    refine ⟨hshelved, fun _ _ => rfl, htight', by simp, fun key hkey => ?_, hleaves⟩
    have hback := (hkeys key hkey).2
    rw [List.mem_singleton]
    tauto
  match result with
  | .error e => exact .pure ⟨⟨_, rfl⟩, names, hdropped (by simp)⟩
  | .ok .deleted => exact .pure ⟨⟨_, rfl⟩, names, hdropped (by simp)⟩
  | .ok .stale => exact .pure ⟨⟨_, rfl⟩, names, hdropped (by simp)⟩
  | .ok .notDue =>
      have henlist := (ends_enlist htight' hroom name).confined
        (confined_enlist (Key.bucket seconds) name)
      apply ends_unbroken_bind (unbroken_enlist _ _) henlist
      intro _ after ⟨henlisted, hbucket⟩
      cases henlisted with
      | refused hwritable => exact absurd hname.2 hwritable
      | listed _ hlisted =>
          refine .pure ⟨⟨_, rfl⟩, Function.update names seconds (names seconds ++ [name]), ?_⟩
          constructor
          · apply hshelved.of_bucket hbucket hlisted
            intro other hother
            rcases List.mem_append.mp hother with hold | hnew
            · exact h.listed seconds other hold
            · rwa [List.mem_singleton.mp hnew]
          · exact fun other hother => Function.update_of_ne hother _ _
          · simpa using hlisted
          · simp
          · intro key hkey
            have hback := (hkeys key hkey).2
            rw [Function.update_self, List.mem_append, List.mem_singleton]
            tauto
          · intro key hkey
            have hkept := Leaves.of_agreeOff hkey.colonFree (hkey.colonFree.ne_bucket seconds)
              hbucket
            exact ((hleaves key hkey).trans hkept).congr (by simp)

/-- All names that were taken out of a bucket are settled. -/
theorem ends_settleEntries_shelved (h : Shelved table names)
    (htight : Listed table (Key.bucket seconds) (names seconds).length (names seconds))
    (hentries : ∀ name ∈ entries, Key.isReserved name = false ∧ Writable name)
    (hroom : (names seconds).length + entries.length < 9223372036854775808) :
    Ends table (settleEntries width now (Key.bucket seconds) (entries.map .text))
      fun outcome after => (∃ report, outcome = .ok report) ∧
        ∃ names', Refiles width now table names seconds entries after names' := by
  induction entries generalizing table names with
  | nil => exact .pure ⟨⟨_, rfl⟩, names, .nil h htight⟩
  | cons name entries ih =>
      obtain ⟨hname, hrest⟩ := List.forall_mem_cons.mp hentries
      rw [List.length_cons] at hroom
      apply Ends.bind_ok (ends_settleEntry_shelved h htight hname (by omega))
      intro first between ⟨names', hfirst⟩
      have hcount := hfirst.count
      rw [List.length_singleton] at hcount
      apply Ends.bind_ok (ih hfirst.shelved hfirst.tight hrest (by omega))
      intro rest after ⟨names'', hafter⟩
      exact .pure ⟨⟨_, rfl⟩, names'', hfirst.cons hafter⟩

/-! ## Buckets -/

/-- What sweeping buckets leads to: a plain key keeps its places in them only if
it goes back, and is removed if one of them lists it and its expiry has come. -/
structure Sweeps (width : BucketWidth) (now : Instant) (table : Table)
    (names : Int64 → List String) (swept : Int64 → Prop) (after : Table)
    (names' : Int64 → List String) : Prop where
  shelved : Shelved after names'
  listed : ∀ key, Plain table key → ∀ seconds, key ∈ names' seconds ↔ key ∈ names seconds ∧
    (swept seconds → goesBack width now (Key.bucket seconds) (table.expiryOf key) = true)
  leaves : ∀ key, Plain table key → Leaves table key
    ((∃ seconds, swept seconds ∧ key ∈ names seconds) ∧
      hasCome now (table.expiryOf key) = true) after

namespace Sweeps

variable {swept later : Int64 → Prop}

theorem refl (h : Shelved table names) (hswept : ∀ seconds, ¬ swept seconds) :
    Sweeps width now table names swept table names :=
  ⟨h, by simp [hswept], fun key _ => .refl table key (by simp [hswept])⟩

theorem trans (hfirst : Sweeps width now table names swept between names')
    (hrest : Sweeps width now between names' later after names'') :
    Sweeps width now table names (fun seconds => swept seconds ∨ later seconds) after names'' := by
  refine ⟨hrest.shelved, fun key hkey seconds => ?_, fun key hkey => ?_⟩
  · have hleaves := hfirst.leaves key hkey
    rw [hrest.listed key (hleaves.plain hkey), hfirst.listed key hkey,
      hleaves.goesBack_eq (fun h => h.2) width _]
    tauto
  · have hleaves := hfirst.leaves key hkey
    have hcome := hleaves.or_hasCome fun h => h.2
    apply (hleaves.trans (hrest.leaves key (hleaves.plain hkey))).congr
    have hlisted := hfirst.listed key hkey
    constructor
    · rintro (⟨⟨seconds, hswept, hmem⟩, h⟩ | ⟨⟨seconds, hswept, hmem⟩, h⟩)
      · exact ⟨⟨seconds, Or.inl hswept, hmem⟩, h⟩
      · exact ⟨⟨seconds, Or.inr hswept, ((hlisted seconds).mp hmem).1⟩, hcome.mp (Or.inr h)⟩
    · rintro ⟨⟨seconds, hswept, hmem⟩, h⟩
      by_cases hearlier : swept seconds
      · exact Or.inl ⟨⟨seconds, hearlier, hmem⟩, h⟩
      · -- The first part removed the key, or left it to the second one.
        apply (hcome.mpr h).imp_right
        intro hstill
        exact ⟨⟨seconds, hswept.resolve_left hearlier,
          (hlisted seconds).mpr ⟨hmem, fun h => absurd h hearlier⟩⟩, hstill⟩

theorem congr (h : Sweeps width now table names swept after names')
    (hiff : ∀ key, Plain table key → ∀ seconds, key ∈ names seconds →
      (swept seconds ↔ later seconds)) :
    Sweeps width now table names later after names' := by
  refine ⟨h.shelved, fun key hkey seconds => ?_, fun key hkey => (h.leaves key hkey).congr ?_⟩
  · rw [h.listed key hkey]
    exact and_congr_right fun hmem => by rw [hiff key hkey seconds hmem]
  · refine and_congr_left fun _ => exists_congr fun seconds => ?_
    exact and_congr_left fun hmem => hiff key hkey seconds hmem

end Sweeps

/-- A bucket is emptied, its names are settled, and those that are still to come
go back. -/
theorem ends_sweepBucket_shelved (h : Shelved table names) (seconds : Int64) :
    Ends table (sweepBucket width now (Key.bucket seconds)) fun outcome after =>
      (∃ report, outcome = .ok report) ∧
      ∃ names', Sweeps width now table names (· = seconds) after names' := by
  obtain ⟨steps, hshelf⟩ := h.shelf seconds
  apply Ends.bind ((ends_takeAll hshelf).confined (Deque.confined_takeAll _))
  · intro e between ⟨⟨heq, _⟩, _⟩
    cases heq
  intro taken between ⟨⟨htaken, hvacant⟩, hagree⟩
  cases htaken
  have hempty := listed_of_vacant hvacant 0
  have hdrained := h.of_bucket hagree hempty fun _ hmem => by cases hmem
  have hself : Function.update names seconds [] seconds = [] := Function.update_self seconds [] names
  have hleaves : ∀ key, Plain table key → Leaves table key False between := fun key hkey =>
    .of_agreeOff hkey.colonFree (hkey.colonFree.ne_bucket seconds) hagree
  apply Ends.bind_ok (ends_settleEntries_shelved hdrained (by rw [hself]; exact hempty)
    (h.listed seconds) (by rw [hself]; simpa using hshelf.length_lt))
  intro report after ⟨names', hrefiles⟩
  refine .pure ⟨⟨_, rfl⟩, names', hrefiles.shelved, fun key hkey other => ?_, fun key hkey => ?_⟩
  · have hbetween := (hleaves key hkey).plain hkey
    have hexpiry := (hleaves key hkey).expiryOf_same id
    by_cases hsame : other = seconds
    · subst hsame
      rw [hrefiles.back key hbetween, hself, hexpiry]
      simp
    · rw [hrefiles.others other hsame, Function.update_of_ne hsame]
      simp [hsame]
  · have hbetween := (hleaves key hkey).plain hkey
    have hexpiry := (hleaves key hkey).expiryOf_same id
    apply ((hleaves key hkey).trans (hrefiles.leaves key hbetween)).congr
    rw [hexpiry]
    simp

/-- Several buckets are swept one after the other. -/
theorem ends_sweepBuckets_shelved (h : Shelved table names) (due : List Int64) :
    Ends table (sweepBuckets width now (due.map Key.bucket)) fun outcome after =>
      (∃ report, outcome = .ok report) ∧
      ∃ names', Sweeps width now table names (· ∈ due) after names' := by
  induction due generalizing table names with
  | nil => exact .pure ⟨⟨_, rfl⟩, names, .refl h (by simp)⟩
  | cons seconds due ih =>
      refine ends_attempt_bind (ends_sweepBucket_shelved h seconds)
        (fun cause between hbroken => absurd hbroken.1 (by simp)) ?_
      intro result between ⟨⟨first, hfirst⟩, names', hsweeps⟩
      cases hfirst
      apply Ends.bind_ok (ih hsweeps.shelved)
      intro rest after ⟨names'', hrest⟩
      exact .pure ⟨⟨_, rfl⟩, names'', (hsweeps.trans hrest).congr (by simp)⟩

end Expiry

namespace Shelved

variable {table : Table} {names : Int64 → List String}

/-- A sweep succeeds, and sweeps the buckets up to the one in which the present
instant would be listed. -/
theorem ends_sweep (h : Shelved table names) (width : BucketWidth) (now : Instant) :
    Ends table (sweep width now) fun outcome after =>
      (∃ report, outcome = .ok report) ∧
      ∃ names', Sweeps width now table names (fun seconds => seconds.toInt ≤ width.ceil now)
        after names' := by
  have hsorted := Table.sorted_rowsUnder table (Utf8.encode Key.bucketStem)
  obtain ⟨due, hvisit, hdue⟩ := @exists_visitRows_collectDue
    (Key.bucketOrdinal (Int64.ofInt (width.ceil now))) _ hsorted
    (fun row hrow => h.exists_bucket hrow) []
  refine .bind_run (run_visitUnder table _ _ _) ?_
  rw [hvisit, List.append_nil, List.reverse_reverse]
  apply (ends_sweepBuckets_shelved h due).conseq
  intro outcome after ⟨hok, names', hsweeps⟩
  refine ⟨hok, names', hsweeps.congr fun key _ seconds hmem => ?_⟩
  obtain ⟨steps, hshelf⟩ := h.shelf seconds
  rw [hdue.mem_iff_toInt_le hshelf (List.ne_nil_of_mem hmem), width.toInt_ceil]

/-! ## Operations -/

variable {key : String}

/-- An expiry is written into the frame of an unreserved key, beside the
buckets. -/
theorem ends_stamp (h : Shelved table names) (hkey : Key.isReserved key = false)
    (instant : Instant) :
    Ends table (stamp key instant) fun outcome after => Shelved after names ∧
      ∀ a, outcome = .ok a → ∃ value,
        after.HasFrame (Key.ofText key) ⟨value, Frame.asStored (some instant)⟩ := by
  have hstamp : Ends table (stamp key instant) fun outcome after =>
      ∀ a, outcome = .ok a → ∃ value,
        after.HasFrame (Key.ofText key) ⟨value, Frame.asStored (some instant)⟩ := by
    apply Ends.bind (ends_readExisting table (Key.ofText key))
    · intro e between _ a heq
      cases heq
    intro frame between ⟨_, hframe⟩
    obtain ⟨old, _, hdecode⟩ := hframe frame rfl
    apply (ends_write between (Key.ofText key) frame.value (some instant)).conseq
    intro outcome after hafter a heq
    subst heq
    obtain ⟨bytes, hencode, rfl⟩ := hafter
    exact ⟨frame.value, bytes, Table.get?_insert_self between _ bytes,
      Frame.decode_encode hencode (Frame.storable_of_decode hdecode)⟩
  apply (hstamp.confined (confined_stamp key instant)).conseq
  intro outcome after ⟨hafter, hagree⟩
  exact ⟨h.of_key hkey hagree, hafter⟩

/-- The expiry of an unreserved key is set: if that succeeds, the key is listed
in the bucket of the instant, and its frame has what is stored of it. -/
theorem ends_setAt (h : Shelved table names) (hkey : Key.isReserved key = false)
    (width : BucketWidth) (now instant : Instant) :
    Ends table (setAt width now key instant) fun outcome after =>
      ∃ names', Shelved after names' ∧ (outcome = .ok true →
        key ∈ names' (Int64.ofInt (width.ceil instant)) ∧
        ∃ value, after.HasFrame (Key.ofText key) ⟨value, Frame.asStored (some instant)⟩) := by
  unfold setAt
  by_cases hpast : instant ≤ now
  · rw [if_pos hpast]
    exact .pure ⟨names, h, fun heq => by cases heq⟩
  rw [if_neg hpast]
  apply Ends.bind (h.ends_stamp hkey instant)
  · intro e between ⟨hbetween, _⟩
    exact ⟨names, hbetween, fun heq => by cases heq⟩
  intro _ stamped ⟨hstamped, hframe⟩
  apply Ends.bind (hstamped.ends_enlist hkey (Int64.ofInt (width.ceil instant)))
  · intro e after ⟨_, hafter⟩
    rcases hafter with ⟨_, heq, _⟩ | ⟨_, _, hsame⟩
    · cases heq
    · exact ⟨names, hsame, fun heq => by cases heq⟩
  · intro _ after ⟨hagree, hafter⟩
    rcases hafter with ⟨_, _, hlisted⟩ | ⟨_, heq, _⟩
    · refine .pure ⟨_, hlisted, fun _ => ⟨?_, ?_⟩⟩
      · rw [Function.update_self]
        exact List.mem_append_right _ (List.mem_singleton_self key)
      · obtain ⟨value, hvalue⟩ := hframe _ rfl
        exact ⟨value, hvalue.congr (hagree _ (Key.not_owns_bucket hkey (.self key)))⟩
    · cases heq

/-- Every operation on an unreserved key, and every sweep, leaves the buckets in
order. -/
theorem ends_perform (h : Shelved table names) (env : Environment) {op : Operation}
    (hkey : ∀ key, op.key? = some key → Key.isReserved key = false) :
    Ends table (op.perform env) fun _ after => ∃ names', Shelved after names' := by
  have hsweep : ∀ now, Ends table (Reply.sweep <$> sweep env.width now) fun _ after =>
      ∃ names', Shelved after names' := by
    intro now
    refine .map _ ((h.ends_sweep env.width now).conseq ?_)
    intro outcome after ⟨_, names', hsweeps⟩
    exact ⟨names', hsweeps.shelved⟩
  have hset : ∀ key instant, Key.isReserved key = false →
      Ends table (setAt env.width env.now key instant) fun _ after =>
        ∃ names', Shelved after names' := by
    intro key instant hkey
    apply (h.ends_setAt hkey env.width env.now instant).conseq
    intro outcome after ⟨names', hafter, _⟩
    exact ⟨names', hafter⟩
  by_cases hschedules : op.schedules = true
  · cases op with
    | expireAt key instant => exact .map _ (hset key instant (hkey key rfl))
    | expireIn key span =>
        refine .map _ ?_
        unfold setIn
        split
        · exact .throw ⟨names, h⟩
        · exact hset key _ (hkey key rfl)
    | _ => cases hschedules
  · have hquiet : op.schedules = false := by simpa using hschedules
    cases hop : op.key? with
    | some key =>
        obtain ⟨outcome, after, hrun, hagree⟩ :=
          (Operation.confined_perform env hop hquiet).run_ofTable table
        exact .of_run hrun ⟨names, h.of_key (hkey key hop) hagree⟩
    | none =>
        cases op with
        | flush => exact .of_run rfl ⟨names, h⟩
        | sweep now => exact hsweep now
        | sweepNow => exact hsweep env.now
        | _ => cases hop

end Shelved

/-! ## Runs -/

/-- After every run on unreserved keys the buckets are in order. -/
theorem Session.run_shelved (session : Session) (hstart : session.engine = .ofTable .empty)
    (steps : List Step)
    (hkeys : ∀ op ∈ operations steps, ∀ key, op.key? = some key → Key.isReserved key = false) :
    ∃ table, (session.run steps).2.engine = .ofTable table ∧ ∃ names, Shelved table names := by
  have hrun := @run_invariant (fun _ table => ∃ names, Shelved table names)
    (fun op => ∀ key, op.key? = some key → Key.isReserved key = false)
    ((operations steps).length + 1) 0 session .empty ?_ steps hstart ⟨_, shelved_empty⟩ hkeys
    (by omega)
  · exact hrun
  · intro op count table clock hkey ⟨names, h⟩ _
    exact h.ends_perform _ hkey

end StructuredStore
