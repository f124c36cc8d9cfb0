import StructuredStore.Proofs.Expiry.Sweeps

/-!
# Expiries that are honoured

An expiry that was set is read back with its nanoseconds, and until it comes no
sweep removes the key or loses its entry.  The first sweep after that removes
the key.  Two kinds of instants are not honoured: the start of 1970, for which
a frame holds no expiry, and those within a leap second that are stored as an
instant of a later slice of time.

Main results:

- `Awaits`: a key waits for its expiry, and is listed where a sweep looks for it.
- `Awaits.ends_sweep_early`, `Awaits.ends_sweep_due`: sweeps before the expiry,
  and after it.
- `setAt_honoured`: an expiry that was set is honoured.
- `setAt_dropped`: expiries that are not.
-/

namespace StructuredStore.Expiry

open Engine Store

/-- Sweeps at some instants, one after the other. -/
def sweeps (width : BucketWidth) : List Instant → StoreM (List SweepReport)
  | [] => pure []
  | now :: nows => do
      let report ← sweep width now
      let reports ← sweeps width nows
      return report :: reports

/-! ## Waiting keys -/

/-- Whether a key waits for its expiry: its frame holds it, and the bucket of the
expiry lists the key. -/
def Awaits (width : BucketWidth) (table : Table) (key : String) (instant : Instant) : Prop :=
  ∃ names, Shelved table names ∧ key ∈ names (Int64.ofInt (width.ceil instant)) ∧
    ∃ value, table.HasFrame (Key.ofText key) ⟨value, some instant⟩

namespace Awaits

variable {width : BucketWidth} {table : Table} {key : String} {instant now : Instant}

/-- What waits is there, and its expiry can be read. -/
theorem run_get (h : Awaits width table key instant) :
    (Expiry.get key).run (ofTable table) = (.ok (some instant), ofTable table) := by
  obtain ⟨_, _, _, value, hframe⟩ := h
  rw [Expiry.get, run_bind_ok (run_readExisting hframe)]
  rfl

theorem run_contains (h : Awaits width table key instant) :
    (Store.contains key).run (ofTable table) = (.ok true, ofTable table) := by
  obtain ⟨_, _, _, value, bytes, hget, _⟩ := h
  rw [Store.contains, run_bind_ok (Engine.run_get table _), hget]
  rfl

/-- A sweep before the expiry leaves the key waiting. -/
theorem ends_sweep_early (h : Awaits width table key instant) (hkey : Key.ColonFree key)
    (hearly : ¬ instant ≤ now) :
    Ends table (sweep width now) fun outcome after =>
      (∃ report, outcome = .ok report) ∧ Awaits width after key instant := by
  obtain ⟨names, hshelved, hlisted, value, hframe⟩ := h
  have hplain : Plain table key := ⟨hkey, Or.inr ⟨_, hframe⟩⟩
  have hexpiry := hframe.expiryOf_eq
  apply (hshelved.ends_sweep width now).conseq
  intro outcome after ⟨hok, names', hsweeps⟩
  refine ⟨hok, names', hsweeps.shelved, ?_, value, hframe.congr ?_⟩
  · rw [hsweeps.listed key hplain, hexpiry]
    exact ⟨hlisted, fun _ => by simp [goesBack, hearly, BucketWidth.bucket]⟩
  · apply (hsweeps.leaves key hplain).same
    simp [hexpiry, hasCome, hearly]

/-- A sweep after the expiry removes the key. -/
theorem ends_sweep_due (h : Awaits width table key instant) (hkey : Key.ColonFree key)
    (hdue : instant ≤ now) :
    Ends table (sweep width now) fun outcome after =>
      (∃ report, outcome = .ok report) ∧ after.get? (Key.ofText key) = none := by
  obtain ⟨names, hshelved, hlisted, value, hframe⟩ := h
  apply (hshelved.ends_sweep width now).conseq
  intro outcome after ⟨hok, names', hsweeps⟩
  refine ⟨hok, (hsweeps.leaves key ⟨hkey, Or.inr ⟨_, hframe⟩⟩).absent ⟨⟨_, ?_, hlisted⟩, ?_⟩⟩
  · rw [width.toInt_ceil]
    exact width.ceil_le_ceil hdue
  · simp [hframe.expiryOf_eq, hasCome, hdue]

/-- Any number of sweeps before the expiry leave the key waiting. -/
theorem ends_sweeps (h : Awaits width table key instant) (hkey : Key.ColonFree key)
    {nows : List Instant} (hearly : ∀ now ∈ nows, ¬ instant ≤ now) :
    Ends table (sweeps width nows) fun outcome after =>
      (∃ reports, outcome = .ok reports) ∧ Awaits width after key instant := by
  induction nows generalizing table with
  | nil => exact .pure ⟨⟨_, rfl⟩, h⟩
  | cons now nows ih =>
      obtain ⟨hnow, hnows⟩ := List.forall_mem_cons.mp hearly
      apply Ends.bind_ok (h.ends_sweep_early hkey hnow)
      intro report between hbetween
      apply Ends.bind_ok (ih hbetween hnows)
      intro reports after hafter
      exact .pure ⟨⟨_, rfl⟩, hafter⟩

end Awaits

/-! ## Set expiries -/

/-- Once the expiry of a key without colon was set, it is read back with its
nanoseconds; sweeps at instants before it succeed and leave the key, and the
next sweep at an instant after it removes the key.  What the frame keeps of the
expiry has to be one, and in the same slice of time. -/
theorem setAt_honoured (session : Session) (hstart : session.engine = .ofTable .empty)
    (steps : List Session.Step)
    (hkeys : ∀ op ∈ Session.operations steps, ∀ key, op.key? = some key →
      Key.isReserved key = false)
    (width : BucketWidth) (now : Instant) {key : String} (hkey : Key.ColonFree key)
    {instant kept : Instant} {scheduled : Engine}
    (hset : (setAt width now key instant).run (session.run steps).2.engine =
      (.ok true, scheduled))
    (hkept : Frame.asStored (some instant) = some kept)
    (hslice : width.ceil kept = width.ceil instant) :
    (Expiry.get key).run scheduled = (.ok (some kept), scheduled) ∧
      kept.nanoseconds = instant.nanoseconds ∧
      ∀ earlier, (∀ now ∈ earlier, now.nanoseconds < instant.nanoseconds) →
        ∃ reports left, (sweeps width earlier).run scheduled = (.ok reports, left) ∧
          (Store.contains key).run left = (.ok true, left) ∧
          ∀ last, instant.nanoseconds ≤ last.nanoseconds → last.IsRegular ∨ kept ≤ last →
            ∃ report after, (sweep width last).run left = (.ok report, after) ∧
              (Store.contains key).run after = (.ok false, after) := by
  obtain ⟨table, hreached, names, hshelved⟩ := session.run_shelved hstart steps hkeys
  obtain ⟨hregular, hcount⟩ := Frame.nanoseconds_of_asStored hkept
  obtain ⟨outcome, set, hrun, names', hset', hentry⟩ :=
    hshelved.ends_setAt hkey.isReserved width now instant
  rw [hreached, hrun] at hset
  cases hset
  obtain ⟨hlisted, value, hframe⟩ := hentry rfl
  rw [hkept] at hframe
  have hawaits : Awaits width set key kept := ⟨names', hset', by rwa [hslice], value, hframe⟩
  refine ⟨hawaits.run_get, hcount, fun earlier hearlier => ?_⟩
  have hearly : ∀ now ∈ earlier, ¬ kept ≤ now := by
    intro now hnow hle
    have hbefore := hearlier now hnow
    have hafter := hregular.nanoseconds_le hle
    omega
  obtain ⟨_, left, hsweeps, ⟨reports, rfl⟩, hleft⟩ := hawaits.ends_sweeps hkey hearly
  refine ⟨reports, _, hsweeps, hleft.run_contains, fun last hlast hdue => ?_⟩
  have hle : kept ≤ last := by
    rcases hdue with hregular' | hle
    · exact hregular'.le_of_nanoseconds_le (by omega)
    · exact hle
  obtain ⟨_, after, hsweep, ⟨report, rfl⟩, hgone⟩ := hleft.ends_sweep_due hkey hle
  refine ⟨report, _, hsweep, ?_⟩
  rw [Store.contains, run_bind_ok (Engine.run_get after _), hgone]
  rfl

/-- The early sweep takes the key out of its bucket and puts it back. -/
theorem setAt_honoured_requeued :
    let session : Session := ⟨.ofTable .empty, ⟨0⟩, ⟨60, by decide, by decide⟩, .none⟩
    let steps : List Session.Step := [.operation (.set "a" .null)]
    let instant : Instant := .ofInt64 90000000000
    (∀ op ∈ Session.operations steps, ∀ key, op.key? = some key → Key.isReserved key = false) ∧
      Key.ColonFree "a" ∧ Frame.asStored (some instant) = some instant ∧
      ∃ scheduled, (setAt session.width (.ofInt64 0) "a" instant).run
          (session.run steps).2.engine = (.ok true, scheduled) ∧
        (Expiry.get "a").run scheduled = (.ok (some instant), scheduled) ∧
        ∃ reports left,
          (sweeps session.width [.ofInt64 65000000000]).run scheduled = (.ok reports, left) ∧
          (Store.contains "a").run left = (.ok true, left) ∧
          ∃ report after,
            (sweep session.width (.ofInt64 100000000000)).run left = (.ok report, after) ∧
            (Store.contains "a").run after = (.ok false, after) := by
  intro session steps instant
  have hkeys : ∀ op ∈ Session.operations steps, ∀ key, op.key? = some key →
      Key.isReserved key = false := by
    intro op hop key hkey
    cases List.mem_singleton.mp hop
    cases hkey
    decide
  have hok : ((setAt session.width (.ofInt64 0) "a" instant).run
      (session.run steps).2.engine).1 = .ok true := by
    decide +kernel
  obtain ⟨scheduled, hset⟩ := exists_run_eq hok
  have hkept : Frame.asStored (some instant) = some instant := by decide
  obtain ⟨hget, _, hsweeps⟩ := setAt_honoured session rfl steps hkeys session.width (.ofInt64 0)
    (by decide) hset hkept rfl
  obtain ⟨reports, left, hearly, hthere, hlast⟩ := hsweeps [.ofInt64 65000000000] (by decide)
  exact ⟨hkeys, by decide, hkept, scheduled, hset, hget, reports, left, hearly, hthere,
    hlast (.ofInt64 100000000000) (by decide) (Or.inl (by decide))⟩

/-- At the start of 1970 a frame holds no expiry, and an instant within a leap
second is stored as one of the next slice of time, which the entry of the key
does not belong to.  The setting succeeds, and no sweep removes the key. -/
theorem setAt_dropped :
    let session (start : Int64) : Session :=
      ⟨.ofTable .empty, ⟨start⟩, ⟨60, by decide, by decide⟩, .none⟩
    let steps (instant early last : Instant) : List Session.Step :=
      [.operation (.set "a" .null), .operation (.expireAt "a" instant),
        .operation (.getExpiry "a"), .operation (.sweep early), .operation (.sweep last),
        .operation (.contains "a")]
    let leap : Instant := ⟨59, 1500000000, by decide, by decide, by decide⟩
    ((session (-5000000000)).run (steps (.ofInt64 0) (.ofInt64 (-1)) (.ofInt64 0))).1 =
        [.ok .done, .ok (.flag true), .ok (.instant none), .ok (.sweep ⟨1, 0, 1, 0⟩),
          .ok (.sweep .zero), .ok (.flag true)] ∧
      ((session 0).run (steps leap (.ofInt64 30000000000) (.ofInt64 61000000000))).1 =
        [.ok .done, .ok (.flag true), .ok (.instant (some (.ofInt64 60500000000))),
          .ok (.sweep ⟨1, 0, 1, 0⟩), .ok (.sweep .zero), .ok (.flag true)] := by
  decide +kernel

end StructuredStore.Expiry
