import StructuredStore.Proofs.Expiry.Exact
import StructuredStore.Proofs.Expiry.Tasks

/-!
# Expiry while clients interleave

Between two steps of a client those of others may come: a name that a sweep took
out of a bucket is in no bucket for a while, and nor is that of a key whose
expiry was just written.  But then some client holds it, and what a client holds
it lists later on, unless the expiry changes before that.

Main results:

- `Task.Holds`: the names that a client still has to list or to settle.
- `Advances`, `Task.ends_begin`, `Task.ends_next`: what one step preserves.
- `Task.ends_next_removes`: which keys one step removes.
- `Tracked.step`: every expiry is listed or held, after any step.
- `System.run_safe`: so it is after any steps of any clients.
-/

namespace StructuredStore.Expiry

open Engine Store

namespace Task

/-! ## Names in hand -/

/-- Whether a client holds the name of a key for a bucket: it has still to list
it there, or took it out and has still to settle it. -/
def Holds (bucket key : String) : Task → Prop
  | .idle => False
  | .enlist bucket' key' => bucket' = bucket ∧ key' = key
  | .drain _ _ _ => False
  | .settle _ bucket' name entries _ => bucket' = bucket ∧ .text key ∈ Value.text name :: entries
  | .giveBack _ bucket' name entries _ => bucket' = bucket ∧ .text key ∈ Value.text name :: entries

/-- Whether a client removes a key in its next step: its name is to be settled,
and its expiry has come. -/
def Deletes (table : Table) (key : String) : Task → Prop
  | .settle now _ name _ _ =>
      key = name ∧ ∃ instant, table.expiryOf key = some instant ∧ instant ≤ now
  | _ => False

end Task

/-- Whether the next action removes a key because its expiry has come. -/
def Action.Deletes {ι : Type} (tasks : ι → Task) (table : Table) (key : String) :
    Action ι → Prop
  | .start _ _ _ => False
  | .proceed client => (tasks client).Deletes table key

namespace Task

/-- Whether the buckets of a task are buckets, and its names those of keys. -/
inductive Fits : Task → Prop where
  | idle : Fits .idle
  | enlist (seconds : Int64) {key : String} (hkey : Key.ColonFree key ∧ Writable key) :
      Fits (.enlist (Key.bucket seconds) key)
  | drain (now : Instant) (seconds : Int64) (due : List Int64) :
      Fits (.drain now (Key.bucket seconds) (due.map Key.bucket))
  | settle (now : Instant) (seconds : Int64) {name : String} {names : List String}
      (due : List Int64) (hnames : ∀ key ∈ name :: names, Key.ColonFree key ∧ Writable key) :
      Fits (.settle now (Key.bucket seconds) name (names.map .text) (due.map Key.bucket))
  | giveBack (now : Instant) (seconds : Int64) {name : String} {names : List String}
      (due : List Int64) (hnames : ∀ key ∈ name :: names, Key.ColonFree key ∧ Writable key) :
      Fits (.giveBack now (Key.bucket seconds) name (names.map .text) (due.map Key.bucket))

theorem text_mem_map_iff {key : String} {names : List String} :
    Value.text key ∈ names.map Value.text ↔ key ∈ names :=
  List.mem_map_of_injective fun _ _ => Value.text.inj

/-- Which names are settled after the first one. -/
theorem text_mem_cons_iff {key name : String} {names : List String} :
    Value.text key ∈ Value.text name :: names.map Value.text ↔ key = name ∨ key ∈ names := by
  rw [← List.map_cons, text_mem_map_iff, List.mem_cons]

section Sweeps

variable {now : Instant} {bucket other key : String} {names : List String}

theorem not_holds_sweeping (due : List String) : ¬ (sweeping now due).Holds bucket key := by
  cases due <;> exact id

/-- A sweep holds what it took out of a bucket. -/
theorem holds_settling_iff (due : List String) :
    (settling now bucket due (names.map .text)).Holds other key ↔
      bucket = other ∧ key ∈ names := by
  cases names with
  | nil => simp [settling, not_holds_sweeping]
  | cons name names => rw [← text_mem_map_iff]; rfl

theorem fits_sweeping (now : Instant) (due : List Int64) :
    Fits (sweeping now (due.map Key.bucket)) := by
  cases due with
  | nil => exact .idle
  | cons seconds due => exact .drain now seconds due

theorem fits_settling (now : Instant) (seconds : Int64) (due : List Int64)
    (hnames : ∀ key ∈ names, Key.ColonFree key ∧ Writable key) :
    Fits (settling now (Key.bucket seconds) (due.map Key.bucket) (names.map .text)) := by
  cases names with
  | nil => exact fits_sweeping now due
  | cons name names => exact .settle now seconds due hnames

end Sweeps
end Task

/-! ## Single steps -/

/-- Whether the name of a key is listed in a bucket, or a client in the middle of
a task holds it for the bucket. -/
def Tracks (names : Int64 → List String) (task : Task) (seconds : Int64) (key : String) : Prop :=
  key ∈ names seconds ∨ task.Holds (Key.bucket seconds) key

/-- What a step of a client leads to: a consistent store in which every key that
expires is tracked for its bucket, if it was so before or its expiry is new. -/
structure Advances (width : BucketWidth) (table : Table) (names : Int64 → List String)
    (task : Task) (steps : Nat) (after : Table) (names' : Int64 → List String) (task' : Task) :
    Prop where
  consistent : Consistent after steps names'
  fits : task'.Fits
  tracks : ∀ key, Key.ColonFree key → ∀ instant, after.expiryOf key = some instant →
    (table.expiryOf key = some instant → Tracks names task (Int64.ofInt (width.ceil instant)) key) →
    Tracks names' task' (Int64.ofInt (width.ceil instant)) key

variable {table after : Table} {steps more : Nat} {names names' : Int64 → List String}
  {width : BucketWidth} {task task' : Task}

namespace Advances

/-- A step that sets no expiry loses no name. -/
theorem of_expiries (h : Consistent after steps names') (hfits : task'.Fits)
    (hexpiry : ∀ key, Key.ColonFree key → ∀ instant, after.expiryOf key = some instant →
      table.expiryOf key = some instant)
    (hmoves : ∀ seconds key, Tracks names task seconds key → Tracks names' task' seconds key) :
    Advances width table names task steps after names' task' :=
  ⟨h, hfits, fun key hkey instant hafter hbefore =>
    hmoves _ key (hbefore (hexpiry key hkey instant hafter))⟩

/-- Nor does one that only removes keys. -/
theorem of_removes {gone : String → Prop} (h : Consistent after steps names') (hfits : task'.Fits)
    (hremoves : Removes table gone after)
    (hmoves : ∀ seconds key, Tracks names task seconds key → Tracks names' task' seconds key) :
    Advances width table names task steps after names' task' :=
  .of_expiries h hfits (fun _ hkey _ => hremoves.expiryOf_before hkey) hmoves

/-- A step that does nothing. -/
theorem same (h : Consistent table steps names) (hle : steps ≤ more) (hfits : task'.Fits)
    (hmoves : ∀ seconds key, task.Holds (Key.bucket seconds) key →
      task'.Holds (Key.bucket seconds) key) :
    Advances width table names task more table names task' :=
  .of_expiries (h.mono hle) hfits (fun _ _ _ hafter => hafter)
    fun seconds key => Or.imp_right (hmoves seconds key)

end Advances

/-- A name that does not go back needs no entry in the bucket that it comes
from. -/
theorem Settles.advances {now : Instant} {seconds : Int64} {name : String}
    {entries : List String} {outcome : Except StoreError Outcome}
    (h : Settles table steps names now width (Key.bucket seconds) name outcome after)
    (hnames : ∀ key ∈ name :: entries, Key.ColonFree key ∧ Writable key) (due : List Int64)
    (hnot : outcome ≠ .ok .notDue) (hle : steps ≤ more) :
    Advances width table names
      (.settle now (Key.bucket seconds) name (entries.map .text) (due.map Key.bucket)) more
      after names (.settling now (Key.bucket seconds) (due.map Key.bucket)
        (entries.map .text)) := by
  refine ⟨h.consistent.mono hle, Task.fits_settling now seconds due fun key hkey =>
    hnames key (List.mem_cons_of_mem _ hkey), fun key hkey instant hafter hbefore => ?_⟩
  have hexpiry := h.removes.expiryOf_before hkey hafter
  rcases hbefore hexpiry with hlisted | ⟨hbucket, hmem⟩
  · exact Or.inl hlisted
  rcases Task.text_mem_cons_iff.mp hmem with rfl | hmem
  · exfalso
    apply hnot
    rw [h.back, hexpiry, goesBack, Option.any_some]
    by_cases hcome : instant ≤ now
    · rw [h.removes.expiryOf_gone hkey ⟨rfl, by simp [hexpiry, hasCome, hcome]⟩] at hafter
      cases hafter
    · simp [hcome, hbucket, BucketWidth.bucket]
  · exact Or.inr ((Task.holds_settling_iff _).mpr ⟨hbucket, hmem⟩)

/-- A name is listed in a bucket. -/
theorem ends_enlist_consistent (h : Consistent table steps names)
    (hsteps : steps + 1 < 9223372036854775808) (seconds : Int64) {key : String}
    (hkey : Key.ColonFree key ∧ Writable key) :
    Ends table (enlist (Key.bucket seconds) key) fun outcome after => (∃ a, outcome = .ok a) ∧
      Consistent after (steps + 1)
        (Function.update names seconds (names seconds ++ [key])) ∧
      Removes table (fun _ => False) after := by
  refine ((ends_enlist (h.bucket seconds) hsteps key).confined (confined_enlist _ key)).conseq ?_
  rintro outcome after ⟨henlisted, hagree⟩
  cases henlisted with
  | refused hwritable => exact absurd hkey.2 hwritable
  | listed _ hlisted =>
      exact ⟨⟨_, rfl⟩, h.of_enlisted hkey hagree (Nat.le_succ steps) hlisted, .of_bucket hagree⟩

namespace Task

/-! ## First steps -/

variable {env : Environment}

/-- A key whose expiry was written is held for its bucket. -/
theorem ends_write (h : Consistent table steps names) {key : String}
    (hkey : Key.ColonFree key ∧ Writable key) {instant : Instant}
    (hregular : instant.IsRegular) :
    Ends table (begin.write env key instant) fun outcome after => ∃ names',
      Advances env.width table names .idle (steps + 1) after names' (ofOutcome outcome) := by
  have hsame : Advances env.width table names .idle (steps + 1) table names .idle :=
    .same h (Nat.le_succ steps) .idle fun _ _ => id
  unfold begin.write
  by_cases hpast : instant ≤ env.now
  · rw [if_pos hpast]
    exact .pure ⟨names, hsame⟩
  rw [if_neg hpast]
  refine .bind (((h.key key hkey.1).ends_stamp instant).confined (confined_stamp key instant)) ?_ ?_
  · rintro e between ⟨rfl, _⟩
    exact ⟨names, hsame⟩
  rintro _ stamped ⟨hstamped, hagree⟩
  have hafter := hstamped.mono (Nat.le_succ steps)
  refine .pure ⟨names, h.of_key hkey.1 hagree (Nat.le_succ steps) hafter, .enlist _ hkey, ?_⟩
  intro other hother instant' hexpiry hbefore
  by_cases hsame : other = key
  · subst hsame
    rw [hstamped.expiryOf_eq] at hexpiry
    rw [Frame.asStored_some hregular hexpiry]
    exact Or.inr ⟨rfl, rfl⟩
  · rw [Table.expiryOf_congr (hagree.other (Or.inl hkey.1) (Or.inl hother) hsame _ (.self other))]
      at hexpiry
    exact Or.inl ((hbefore hexpiry).resolve_right id)

/-- The buckets that a sweep finds are buckets. -/
theorem ends_scan (h : Consistent table steps names) (now : Instant) :
    Ends table (begin.scan width now) fun outcome after => after = table ∧ ∃ names',
      Advances width table names .idle steps after names' (ofOutcome outcome) := by
  obtain ⟨due, hvisit, _⟩ := @exists_visitRows_collectDue
    (Key.bucketOrdinal (Int64.ofInt (width.ceil now))) _
    (Table.sorted_rowsUnder table (Utf8.encode Key.bucketStem)) (fun _ => h.exists_bucket) []
  refine .bind_run (run_visitUnder table _ _ _) ?_
  rw [hvisit, List.append_nil, List.reverse_reverse]
  exact .pure ⟨rfl, names, .same h le_rfl (fits_sweeping now due) fun _ _ => False.elim⟩

/-- All operations on a key but those that set its expiry are one step. -/
theorem begin_eq_perform {op : Operation} {key : String} (hop : op.key? = some key)
    (hschedules : op.schedules = false) :
    begin env op = (do let _ ← op.perform env; return .idle) := by
  cases op with
  | expireAt | expireIn => exact absurd hschedules Bool.false_ne_true.symm
  | flush | sweep | sweepNow => cases hop
  | _ => rfl

/-- The first step of an operation on a key. -/
theorem ends_begin (h : Consistent table steps names) (hsteps : steps + 1 < 9223372036854775808)
    {op : Operation} {key : String} (hop : op.key? = some key)
    (hkey : Key.ColonFree key ∧ Writable key)
    (hinstant : ∀ instant, op.expiry? env.now = some instant → instant.IsRegular) :
    Ends table (begin env op) fun outcome after => ∃ names',
      Advances env.width table names .idle (steps + 1) after names' (ofOutcome outcome) := by
  by_cases hschedules : op.schedules = true
  · cases op with
    | expireAt key' instant =>
        cases hop
        exact ends_write h hkey (hinstant instant rfl)
    | expireIn key' span =>
        cases hop
        rw [begin]
        cases hsum : env.now.add? span with
        | none => exact .throw ⟨names, .same h (Nat.le_succ steps) .idle fun _ _ => id⟩
        | some instant => exact ends_write h hkey (hinstant instant hsum)
    | _ => cases hschedules
  · rw [Bool.not_eq_true] at hschedules
    rw [begin_eq_perform hop hschedules]
    have hadvances : ∀ after, Consistent after (steps + 1) names →
        table.AgreeOff (Key.Owns key) after →
        (after.expiryOf key = table.expiryOf key ∨ after.expiryOf key = none) →
        Advances env.width table names .idle (steps + 1) after names .idle := by
      intro after hafter hagree hexpiry
      refine .of_expiries hafter .idle (fun other hother instant hinstant => ?_) fun _ _ => id
      by_cases hsame : other = key
      · subst hsame
        rcases hexpiry with hkept | hnone
        · rwa [← hkept]
        · rw [hnone] at hinstant
          cases hinstant
      · rwa [← Table.expiryOf_congr
          (hagree.other (Or.inl hkey.1) (Or.inl hother) hsame _ (.self other))]
    refine .bind (h.ends_perform hsteps env hop hkey.1 hschedules) ?_ ?_
    · rintro e after ⟨hafter, hagree, hexpiry⟩
      exact ⟨names, hadvances after hafter hagree hexpiry⟩
    · rintro _ after ⟨hafter, hagree, hexpiry⟩
      exact .pure ⟨names, hadvances after hafter hagree hexpiry⟩

/-- An operation on no key writes nothing in its first step. -/
theorem ends_begin_keyless (h : Consistent table steps names) {op : Operation}
    (hop : op.key? = none) :
    Ends table (begin env op) fun outcome after => after = table ∧ ∃ names',
      Advances env.width table names .idle steps after names' (ofOutcome outcome) := by
  cases op with
  | flush => exact .of_run rfl ⟨rfl, names, .same h le_rfl .idle fun _ _ => id⟩
  | sweep now => exact ends_scan h now
  | sweepNow => exact ends_scan h env.now
  | _ => cases hop

/-! ## Further steps -/

/-- What a client still had to list or to settle is listed, or it holds it. -/
theorem ends_next (h : Consistent table steps names) (hsteps : steps + 1 < 9223372036854775808)
    (hfits : task.Fits) :
    Ends table (task.next width) fun outcome after => ∃ names',
      Advances width table names task (steps + 1) after names' (ofOutcome outcome) := by
  cases hfits with
  | idle => exact .pure ⟨names, .same h (Nat.le_succ steps) .idle fun _ _ => id⟩
  | enlist seconds hkey =>
      refine .bind_ok (ends_enlist_consistent h hsteps seconds hkey) ?_
      rintro _ after ⟨hafter, hremoves⟩
      refine .pure ⟨_, .of_removes hafter .idle hremoves ?_⟩
      rintro other name (hlisted | ⟨hbucket, hsame⟩)
      · exact Or.inl (mem_enlisted_iff.mpr (Or.inl hlisted))
      · exact Or.inl (mem_enlisted_iff.mpr (Or.inr ⟨Key.bucket_injective hbucket.symm, hsame.symm⟩))
  | drain now seconds due =>
      refine ends_attempt_bind (ends_drain h seconds)
        (fun cause between hbroken => absurd hbroken.1 (by simp)) ?_
      rintro _ after ⟨rfl, _, hafter, hremoves⟩
      refine .pure ⟨_, .of_removes (hafter.mono (Nat.le_succ steps))
        (fits_settling now seconds due (h.listed seconds)) hremoves ?_⟩
      rintro other name (hlisted | hholds)
      · by_cases hsame : other = seconds
        · subst hsame
          exact Or.inr ((holds_settling_iff _).mpr ⟨rfl, hlisted⟩)
        · exact Or.inl (by rwa [Function.update_of_ne hsame])
      · exact hholds.elim
  | settle now seconds due hnames =>
      refine ends_unbroken_bind (unbroken_settle _ _ _ _)
        (ends_settle h (hnames _ List.mem_cons_self).1 _) ?_
      intro result after hsettles
      have hdropped : result ≠ .ok .notDue → ∃ names', Advances width table names _ (steps + 1)
          after names' _ := fun hresult =>
        ⟨names, hsettles.advances hnames due hresult (Nat.le_succ steps)⟩
      rcases result with e | outcome
      · exact .pure (hdropped (by simp))
      · cases outcome with
        | deleted => exact .pure (hdropped (by simp))
        | stale => exact .pure (hdropped (by simp))
        | notDue =>
            exact .pure ⟨names, .of_removes (hsettles.consistent.mono (Nat.le_succ steps))
              (.giveBack now seconds due hnames) hsettles.removes fun _ _ => id⟩
  | giveBack now seconds due hnames =>
      refine ends_unbroken_bind (unbroken_enlist _ _)
        (ends_enlist_consistent h hsteps seconds (hnames _ List.mem_cons_self)) ?_
      rintro _ after ⟨_, hafter, hremoves⟩
      refine .pure ⟨_, .of_removes hafter
        (fits_settling now seconds due fun key hkey => hnames key (List.mem_cons_of_mem _ hkey))
        hremoves ?_⟩
      rintro other key (hlisted | ⟨hbucket, hmem⟩)
      · exact Or.inl (mem_enlisted_iff.mpr (Or.inl hlisted))
      · rcases text_mem_cons_iff.mp hmem with hsame | hmem
        · exact Or.inl (mem_enlisted_iff.mpr (Or.inr ⟨Key.bucket_injective hbucket.symm, hsame⟩))
        · exact Or.inr ((holds_settling_iff _).mpr ⟨hbucket, hmem⟩)

/-- The next step of a client removes the key whose name is to be settled, if its
expiry has come, and no other one. -/
theorem ends_next_removes (h : Consistent table steps names) (hfits : task.Fits) :
    Ends table (task.next width) fun _ after =>
      Removes table (fun key => task.Deletes table key) after := by
  have henlist : ∀ seconds key, Ends table (Expiry.enlist (Key.bucket seconds) key)
      fun _ after => Removes table (fun _ => False) after := by
    intro seconds key
    obtain ⟨outcome, after, hrun, hagree⟩ := (confined_enlist (Key.bucket seconds) key).run_ofTable
      table
    exact .of_run hrun (.of_bucket hagree)
  cases hfits with
  | idle => exact .pure (.refl table fun _ => id)
  | enlist seconds hkey =>
      exact .bind (henlist seconds _) (fun _ _ h => h) fun _ _ h => .pure h
  | drain now seconds due =>
      refine ends_attempt_bind (ends_drain h seconds)
        (fun cause between hbroken => absurd hbroken.1 (by simp)) ?_
      rintro _ after ⟨rfl, _, _, hremoves⟩
      exact .pure hremoves
  | settle now seconds due hnames =>
      refine ends_unbroken_bind (unbroken_settle _ _ _ _)
        (ends_settle h (hnames _ List.mem_cons_self).1 _) ?_
      intro result after hsettles
      have hremoves := hsettles.removes.congr fun key hkey =>
        and_congr_right' (@hasCome_iff now (table.expiryOf key))
      rcases result with e | outcome
      · exact .pure hremoves
      · cases outcome <;> exact .pure hremoves
  | giveBack now seconds due hnames =>
      exact ends_unbroken_bind (unbroken_enlist _ _) (henlist seconds _) fun _ _ h => .pure h

end Task

/-! ## All clients -/

section Clients

variable {ι : Type} {tasks : ι → Task}

/-- Whether a store is consistent, clients hold names of keys, and every expiry is
listed in its bucket or held for it by some client. -/
structure Tracked (width : BucketWidth) (steps : Nat) (table : Table)
    (names : Int64 → List String) (tasks : ι → Task) : Prop where
  consistent : Consistent table steps names
  fits : ∀ client, (tasks client).Fits
  covered : ∀ key, Key.ColonFree key → ∀ instant, table.expiryOf key = some instant →
    key ∈ names (Int64.ofInt (width.ceil instant)) ∨
      ∃ client, (tasks client).Holds (width.bucket instant) key

namespace Tracked

theorem mono (h : Tracked width steps table names tasks) (hle : steps ≤ more) :
    Tracked width more table names tasks :=
  ⟨h.consistent.mono hle, h.fits, h.covered⟩

theorem initial : Tracked width 0 .empty (fun _ => []) fun _ : ι => .idle :=
  ⟨consistent_empty, fun _ => .idle, fun key hkey instant hexpiry =>
    Or.inl (covers_empty width key hkey instant hexpiry)⟩

/-- As long as no client holds a name, what the buckets list covers all
expiries. -/
theorem covers (h : Tracked width steps table names tasks)
    (hidle : ∀ client, tasks client = .idle) : Covers width names table := by
  intro key hkey instant hexpiry
  rcases h.covered key hkey instant hexpiry with hlisted | ⟨client, hholds⟩
  · exact hlisted
  · rw [hidle client] at hholds
    exact hholds.elim

variable [DecidableEq ι]

/-- What one client does leaves what the others hold. -/
theorem act (h : Tracked width steps table names tasks) (client : ι) {step : StoreM Task}
    (hstep : Ends table step fun outcome after => ∃ names',
      Advances width table names (tasks client) more after names' (.ofOutcome outcome)) :
    ∃ after names' tasks',
      System.act ⟨.ofTable table, tasks⟩ client step = ⟨.ofTable after, tasks'⟩ ∧
        Tracked width more after names' tasks' := by
  obtain ⟨outcome, after, hrun, names', hadvances⟩ := hstep
  refine ⟨after, names', _, System.act_of_run hrun tasks client, hadvances.consistent,
    fun other => ?_, fun key hkey instant hafter => ?_⟩
  · by_cases hsame : other = client
    · subst hsame
      rw [Function.update_self]
      exact hadvances.fits
    · rw [Function.update_of_ne hsame]
      exact h.fits other
  · by_cases hothers : ∃ other, other ≠ client ∧ (tasks other).Holds (width.bucket instant) key
    · obtain ⟨other, hne, hholds⟩ := hothers
      exact Or.inr ⟨other, by rwa [Function.update_of_ne hne]⟩
    · have htracks := hadvances.tracks key hkey instant hafter fun hexpiry => by
        refine (h.covered key hkey instant hexpiry).imp_right fun ⟨other, hholds⟩ => ?_
        by_cases hsame : other = client
        · rwa [← hsame]
        · exact absurd ⟨other, hsame, hholds⟩ hothers
      exact htracks.imp_right fun hholds => ⟨client, by rwa [Function.update_self]⟩

/-- Whatever happens next, every expiry is still listed or held. -/
theorem step (h : Tracked width steps table names tasks) (providers : Providers)
    (action : Action ι)
    (hkey : ∀ op, action.operation? = some op → ∀ key, op.key? = some key →
      Key.ColonFree key ∧ (Utf8.encode key).length < 2 ^ 32)
    (hinstant : ∀ instant, action.expiry? = some instant → instant.IsRegular)
    (hsteps : steps + (if action.isLocked then 1 else 0) < 2 ^ 63) :
    ∃ after names' tasks',
      System.step width providers ⟨.ofTable table, tasks⟩ action = ⟨.ofTable after, tasks'⟩ ∧
        Tracked width (steps + if action.isLocked then 1 else 0) after names' tasks' := by
  cases action with
  | proceed client =>
      exact h.act client (Task.ends_next h.consistent hsteps (h.fits client))
  | start client now op =>
      rw [System.step]
      split
      · rename_i hidle
        apply h.act client
        rw [show tasks client = .idle from hidle]
        cases hop : op.key? with
        | none =>
            refine (Task.ends_begin_keyless h.consistent hop).conseq ?_
            rintro outcome after ⟨_, hadvances⟩
            rw [Action.isLocked, hop]
            exact hadvances
        | some key =>
            rw [Action.isLocked, hop] at hsteps ⊢
            obtain ⟨hfree, hlength⟩ := hkey op rfl key hop
            exact Task.ends_begin h.consistent hsteps hop ⟨hfree, writable_of_length hlength⟩
              hinstant
      · exact ⟨table, names, tasks, rfl, h.mono (Nat.le_add_right _ _)⟩

/-- What happens next removes no key but one whose expiry has come, unless it is
an operation on a key. -/
theorem step_removes (h : Tracked width steps table names tasks) (providers : Providers)
    (action : Action ι) (hkeyless : ∀ op, action.operation? = some op → op.key? = none) :
    ∃ after tasks',
      System.step width providers ⟨.ofTable table, tasks⟩ action = ⟨.ofTable after, tasks'⟩ ∧
        Removes table (fun key => action.Deletes tasks table key) after := by
  cases action with
  | proceed client =>
      obtain ⟨outcome, after, hrun, hremoves⟩ :=
        @Task.ends_next_removes table steps names width _ h.consistent (h.fits client)
      exact ⟨after, _, System.act_of_run hrun tasks client, hremoves⟩
  | start client now op =>
      rw [System.step]
      split
      · obtain ⟨outcome, after, hrun, rfl, _⟩ := @Task.ends_begin_keyless table steps names
          ⟨now, width, providers⟩ h.consistent op (hkeyless op rfl)
        exact ⟨after, _, System.act_of_run hrun tasks client, .refl _ fun _ => id⟩
      · exact ⟨table, tasks, rfl, .refl _ fun _ => id⟩

/-- After any steps of any clients, every expiry is listed or held. -/
theorem run (h : Tracked width steps table names tasks) (providers : Providers)
    (actions : List (Action ι))
    (hkeys : ∀ op ∈ System.operations actions, ∀ key, op.key? = some key →
      Key.ColonFree key ∧ (Utf8.encode key).length < 2 ^ 32)
    (hinstants : ∀ action ∈ actions, ∀ instant, action.expiry? = some instant →
      instant.IsRegular)
    (hcount : steps + actions.countP Action.isLocked < 2 ^ 63) :
    ∃ after names' tasks',
      System.run width providers ⟨.ofTable table, tasks⟩ actions = ⟨.ofTable after, tasks'⟩ ∧
        Tracked width (steps + actions.countP Action.isLocked) after names' tasks' := by
  induction actions generalizing steps table names tasks with
  | nil => exact ⟨table, names, tasks, rfl, h⟩
  | cons action actions ih =>
      rw [List.countP_cons] at hcount ⊢
      rw [System.operations_cons] at hkeys
      obtain ⟨hkey, hkeys⟩ := List.forall_mem_append.mp hkeys
      obtain ⟨hinstant, hinstants⟩ := List.forall_mem_cons.mp hinstants
      obtain ⟨between, names', tasks', hstep, hbetween⟩ := h.step providers action
        (fun op hop => hkey op (Option.mem_toList.mpr hop)) hinstant (by omega)
      rw [System.run, List.foldl_cons, hstep, Nat.add_comm (actions.countP _), ← Nat.add_assoc]
      exact ih hbetween hkeys hinstants (by omega)

end Tracked
end Clients

namespace System

variable {ι : Type} [DecidableEq ι]

/-- After less than `2 ^ 63` steps under locks of any clients on an empty store,
every key that expires is listed in the bucket of its expiry or held for it by a
client.  What happens next removes no key but one whose expiry has come for the
sweep that settles it, unless it is an operation on a key.  And if all clients
are idle, a sweep at any instant removes exactly the keys whose expiry has
come. -/
theorem run_safe (width : BucketWidth) (providers : Providers) (actions : List (Action ι))
    (hkeys : ∀ op ∈ operations actions, ∀ key, op.key? = some key →
      Key.ColonFree key ∧ (Utf8.encode key).length < 2 ^ 32)
    (hinstants : ∀ action ∈ actions, ∀ instant, action.expiry? = some instant →
      instant.IsRegular)
    (hcount : actions.countP Action.isLocked < 2 ^ 63) :
    ∃ table tasks, run width providers initial actions = ⟨.ofTable table, tasks⟩ ∧
      (∀ key, Key.ColonFree key → ∀ instant, table.expiryOf key = some instant →
        table.Lists (width.bucket instant) key ∨
          ∃ client, (tasks client).Holds (width.bucket instant) key) ∧
      (∀ action, (∀ op, action.operation? = some op → op.key? = none) → ∃ after tasks',
        step width providers ⟨.ofTable table, tasks⟩ action = ⟨.ofTable after, tasks'⟩ ∧
        Removes table (fun key => action.Deletes tasks table key) after) ∧
      ((∀ client, tasks client = .idle) → ∀ now, ∃ report after,
        (sweep width now).run (.ofTable table) = (.ok report, .ofTable after) ∧
        Removes table (fun key => ∃ instant, table.expiryOf key = some instant ∧ instant ≤ now)
          after ∧
        Indexed width after) := by
  have hinitial : Tracked width 0 .empty (fun _ => []) (initial : System ι).tasks := .initial
  obtain ⟨table, names, tasks, hrun, htracked⟩ :=
    hinitial.run providers actions hkeys hinstants (by omega)
  refine ⟨table, tasks, hrun, ?_, htracked.step_removes providers, ?_⟩
  · intro key hkey instant hexpiry
    exact (htracked.covered key hkey instant hexpiry).imp_left (htracked.consistent.bucket _).lists
  · intro hidle now
    obtain ⟨_, after, hsweep, ⟨report, rfl⟩, hremoves, hindexed⟩ :=
      htracked.consistent.ends_sweep_exact (by omega) (htracked.covers hidle) now
    exact ⟨report, after, hsweep, hremoves, hindexed⟩

/-- An early sweep has drained the bucket of a key when that of another client
comes, which finds nothing: the first one holds the key.  It gives the key back,
and the next sweep removes it. -/
theorem run_safe_drained :
    let width : BucketWidth := ⟨60, by decide, by decide⟩
    let zero : Instant := .ofInt64 0
    let expiry : Instant := .ofInt64 90000000000
    let late : Instant := .ofInt64 100000000000
    let actions : List (Action Bool) := [.start false zero (.set "a" .null),
      .start false zero (.expireAt "a" expiry), .proceed false,
      .start true zero (.sweep (.ofInt64 85000000000)), .proceed true,
      .start false late .sweepNow]
    let later : List (Action Bool) := actions ++ [.proceed true, .proceed true]
    (∀ op ∈ operations later, ∀ key, op.key? = some key →
        Key.ColonFree key ∧ (Utf8.encode key).length < 2 ^ 32) ∧
      (∀ action ∈ later, ∀ instant, action.expiry? = some instant → instant.IsRegular) ∧
      later.countP Action.isLocked < 2 ^ 63 ∧
      (∃ table tasks, run width .none initial actions = ⟨.ofTable table, tasks⟩ ∧
        table.get? (Key.ofText (width.bucket expiry)) = none ∧
        table.expiryOf "a" = some expiry ∧
        ∃ client, (tasks client).Holds (width.bucket expiry) "a") ∧
      ∃ table tasks, run width .none initial later = ⟨.ofTable table, tasks⟩ ∧
        table.expiryOf "a" = some expiry ∧ ∃ report after,
          (sweep width late).run (.ofTable table) = (.ok report, .ofTable after) ∧
          after.Vacant "a" := by
  intro width zero expiry late actions later
  have hkeys : ∀ op ∈ operations later, ∀ key, op.key? = some key →
      Key.ColonFree key ∧ (Utf8.encode key).length < 2 ^ 32 := by
    have hall : ((operations later).all fun op => op.key?.all fun key =>
        decide (Key.ColonFree key ∧ (Utf8.encode key).length < 2 ^ 32)) = true := by
      decide +kernel
    intro op hop key hkey
    simpa [hkey] using List.all_eq_true.mp hall op hop
  have hinstants : ∀ action ∈ later, ∀ instant, action.expiry? = some instant →
      instant.IsRegular := by
    have hall : (later.all fun action => action.expiry?.all fun instant =>
        decide instant.IsRegular) = true := by
      decide +kernel
    intro action haction instant hinstant
    simpa [hinstant] using List.all_eq_true.mp hall action haction
  have hcount : later.countP Action.isLocked < 2 ^ 63 := by decide
  have hmem : ∀ op ∈ operations actions, op ∈ operations later := by
    intro op hop
    rw [operations, List.filterMap_append]
    exact List.mem_append_left _ hop
  have hmid : (run width .none initial actions).engine.table.get?
        (Key.ofText (width.bucket expiry)) = none ∧
      (run width .none initial actions).engine.table.expiryOf "a" = some expiry := by
    decide +kernel
  have hend : (run width .none initial later).engine.table.expiryOf "a" = some expiry ∧
      (run width .none initial later).tasks false = .idle ∧
      (run width .none initial later).tasks true = .idle := by
    decide +kernel
  refine ⟨hkeys, hinstants, hcount, ?_, ?_⟩
  · obtain ⟨table, tasks, hrun, hcovered, _⟩ := run_safe width .none actions
      (fun op hop => hkeys op (hmem op hop))
      (fun action haction => hinstants action (List.mem_append_left _ haction)) (by decide)
    rw [hrun] at hmid
    refine ⟨table, tasks, hrun, hmid.1, hmid.2, ?_⟩
    rcases hcovered "a" (by decide) expiry hmid.2 with ⟨handle, hframe, _⟩ | hheld
    · exact absurd hmid.1 hframe.get?_ne_none
    · exact hheld
  · obtain ⟨table, tasks, hrun, _, _, hsweep⟩ := run_safe width .none later hkeys hinstants hcount
    rw [hrun] at hend
    obtain ⟨hexpiry, hfalse, htrue⟩ := hend
    obtain ⟨report, after, hafter, hremoves, _⟩ :=
      hsweep (fun client => by cases client; exacts [hfalse, htrue]) late
    exact ⟨table, tasks, hrun, hexpiry, report, after, hafter,
      hremoves.vacant "a" (by decide) ⟨expiry, hexpiry, by decide⟩⟩

end System
end StructuredStore.Expiry
