import StructuredStore.Proofs.Expiry.Slices
import StructuredStore.Proofs.Layout.Transition

/-!
# Expiry is exact

An expiry lies in the frame of its key, apart from the entry in the bucket that
lets a sweep find it.  Stale entries stay behind when the expiry goes or
changes, but no operation leaves an expiry without its entry.  So a sweep, which
visits all buckets up to the present, removes every key whose expiry has come
and no other one.

Main results:

- `Indexed`: every key that expires is listed in the bucket of its expiry.
- `Covers.transition`: operations leave no expiry without its entry.
- `Consistent.ends_sweep_exact`: a sweep removes exactly what it should.
- `Session.run_expiry_exact`: so it does after every run from an empty store.
-/

namespace StructuredStore

open Engine Store Expiry

/-! ## Listed expiries -/

/-- Whether the list at a bucket has the name of a key among its items. -/
def Table.Lists (table : Table) (bucket key : String) : Prop :=
  ∃ handle, table.HasFrame (Key.ofText bucket) ⟨.list handle, none⟩ ∧
    ∃ index : Int64, handle.head.toInt ≤ index.toInt ∧ index.toInt ≤ handle.tail.toInt ∧
      table.HasFrame (Key.listItem bucket index) ⟨.text key, none⟩

/-- Whether every key that expires is listed in the bucket of its expiry. -/
def Indexed (width : BucketWidth) (table : Table) : Prop :=
  ∀ key, Key.ColonFree key → ∀ instant, table.expiryOf key = some instant →
    table.Lists (width.bucket instant) key

/-- Whether the names that the buckets list cover all expiries. -/
def Covers (width : BucketWidth) (names : Int64 → List String) (table : Table) : Prop :=
  ∀ key, Key.ColonFree key → ∀ instant, table.expiryOf key = some instant →
    key ∈ names (Int64.ofInt (width.ceil instant))

/-- A listed name is an item of the list at the bucket. -/
theorem Expiry.Listed.lists {table : Table} {bucket name : String} {steps : Nat}
    {names : List String} (h : Listed table bucket steps names) (hname : name ∈ names) :
    table.Lists bucket name := by
  rcases h with ⟨_, hnil⟩ | ⟨handle, items, hstored, hholding, _⟩
  · rw [hnil] at hname
    cases hname
  · rcases List.mem_iff_getElem?.mp hname with ⟨place, hplace⟩
    have hentry := hholding.getElem? place
    rw [List.getElem?_map, hplace] at hentry
    rcases Option.map_eq_some_iff.mp hentry with ⟨item, hitem, hdecode⟩
    rcases List.getElem?_eq_some_iff.mp hitem with ⟨hlt, _⟩
    have hroom := hstored.describes.room
    have htail := hstored.describes.tail
    have hindex : (Int64.ofInt (handle.head.toInt + place)).toInt = handle.head.toInt + place := by
      have hlow := handle.head.le_toInt
      exact Int64.toInt_ofInt_of_le (by omega) (by omega)
    refine ⟨handle, hstored.frame, _, ?_, ?_, item, (hstored.get?_place hindex).trans hitem, hdecode⟩
    · omega
    · omega

variable {table after : Table} {steps : Nat} {names : Int64 → List String} {width : BucketWidth}

/-- In an empty store no key expires. -/
theorem covers_empty (width : BucketWidth) : Covers width (fun _ => []) .empty := by
  intro key _ instant hexpiry
  rw [Table.expiryOf_absent (Table.get?_empty _)] at hexpiry
  cases hexpiry

theorem Covers.indexed (hcovers : Covers width names table) (h : Consistent table steps names) :
    Indexed width table := by
  intro key hkey instant hexpiry
  exact (h.bucket _).lists (hcovers key hkey instant hexpiry)

/-! ## Sweeps -/

namespace Covers

/-- A sweep of all buckets up to the present finds every expiry that has come. -/
theorem mem_swept {swept : List Int64} {now instant : Instant} {key : String}
    (hcovers : Covers width names table)
    (hswept : ∀ seconds, names seconds ≠ [] →
      seconds.toInt ≤ (Int64.ofInt (width.ceil now)).toInt → seconds ∈ swept)
    (hkey : Key.ColonFree key) (hexpiry : table.expiryOf key = some instant)
    (hcome : instant ≤ now) : ∃ seconds ∈ swept, key ∈ names seconds := by
  have hmem := hcovers key hkey instant hexpiry
  refine ⟨_, hswept _ (List.ne_nil_of_mem hmem) ?_, hmem⟩
  rw [width.toInt_ceil, width.toInt_ceil]
  exact width.ceil_le_ceil hcome

/-- A sweep puts back the entries of all keys that it leaves. -/
theorem sweptNames {swept : List Int64} {now : Instant} (hcovers : Covers width names table)
    (hremoves : Removes table (fun key => (∃ seconds ∈ swept, key ∈ names seconds) ∧
      hasCome now (table.expiryOf key) = true) after) :
    Covers width (sweptNames width now table swept names) after := by
  intro key hkey instant hexpiry
  by_cases hgone : (∃ seconds ∈ swept, key ∈ names seconds) ∧
      hasCome now (table.expiryOf key) = true
  · rw [hremoves.expiryOf_gone hkey hgone] at hexpiry
    cases hexpiry
  · rw [hremoves.expiryOf_kept hkey hgone] at hexpiry
    have hmem := hcovers key hkey instant hexpiry
    by_cases hslot : Int64.ofInt (width.ceil instant) ∈ swept
    · have hlater : ¬ instant ≤ now := by
        intro hcome
        apply hgone
        refine ⟨⟨_, hslot, hmem⟩, ?_⟩
        simp [hasCome, hexpiry, hcome]
      rw [Expiry.sweptNames, if_pos hslot]
      refine List.mem_filter.mpr ⟨hmem, ?_⟩
      simp [goesBack, hexpiry, hlater, BucketWidth.bucket]
    · rwa [Expiry.sweptNames, if_neg hslot]

end Covers

/-- A sweep removes exactly the keys whose expiry has come, and what stays is
still listed. -/
theorem Consistent.ends_sweep_exact (h : Consistent table steps names)
    (hsteps : steps < 9223372036854775808) (hcovers : Covers width names table) (now : Instant) :
    Ends table (sweep width now) fun outcome after =>
      (∃ report, outcome = .ok report) ∧
      Removes table (fun key => ∃ instant, table.expiryOf key = some instant ∧ instant ≤ now)
        after ∧
      Indexed width after := by
  refine (h.ends_sweep hsteps width now).conseq ?_
  rintro outcome after ⟨hok, swept, hswept, hafter, hremoves⟩
  refine ⟨hok, hremoves.congr fun key hkey => ?_, (hcovers.sweptNames hremoves).indexed hafter⟩
  constructor
  · exact fun ⟨_, hcome⟩ => hasCome_iff.mp hcome
  · rintro ⟨instant, hexpiry, hle⟩
    exact ⟨hcovers.mem_swept hswept hkey hexpiry hle, hasCome_iff.mpr ⟨instant, hexpiry, hle⟩⟩

/-! ## Operations -/

/-- No operation leaves an expiry without its entry, if the key's name can be
written and the expiry lies in no leap second. -/
theorem Covers.transition {op : Operation} (hcovers : Covers width names table)
    (htransition : Transition table steps names width op after)
    (hkey : ∀ key, op.key? = some key → Writable key)
    (hinstant : ∀ key instant, op = .expireAt key instant → instant.IsRegular) :
    ∃ names', Consistent after (steps + 1) names' ∧ Covers width names' after := by
  cases htransition with
  | keep h hexpiry =>
      refine ⟨names, h, ?_⟩
      intro key hfree instant hafter
      rcases hexpiry key hfree with hsame | hnone
      · exact hcovers key hfree instant (hsame.symm.trans hafter)
      · rw [hnone] at hafter
        cases hafter
  | @schedule key instant hop hsource h =>
      rcases h with ⟨names', hconsistent, hothers, hlisted, hexpiry⟩
      have hregular : instant.IsRegular := by
        rcases hsource with hexpireAt | hregular
        · exact hinstant key instant hexpireAt
        · exact hregular
      refine ⟨names', hconsistent, ?_⟩
      intro other hfree instant' hafter
      by_cases hsame : other = key
      · subst hsame
        rcases hexpiry with hold | ⟨hnew, hentry⟩
        · exact hlisted _ _ (hcovers other hfree instant' (hold.symm.trans hafter))
        · rw [hnew] at hafter
          rw [Frame.asStored_some hregular hafter]
          exact hentry (hkey other hop)
      · rw [hothers other hfree hsame] at hafter
        exact hlisted _ _ (hcovers other hfree instant' hafter)
  | sweep _ h hremoves =>
      exact ⟨_, h.mono (Nat.le_succ steps), hcovers.sweptNames hremoves⟩

/-! ## Runs -/

namespace Session

/-- After any run from an empty store, what the buckets list covers all
expiries. -/
theorem run_covers (session : Session) (hstart : session.engine = .ofTable .empty)
    (steps : List Step)
    (hkeys : ∀ op ∈ operations steps, ∀ key, op.key? = some key →
      Key.ColonFree key ∧ (Utf8.encode key).length < 2 ^ 32)
    (hinstants : ∀ op ∈ operations steps, ∀ key instant, op = .expireAt key instant →
      instant.IsRegular)
    (hcount : (operations steps).length < 2 ^ 63) :
    ∃ table, (session.run steps).2.engine = .ofTable table ∧
      ∃ names, Consistent table (0 + (operations steps).length) names ∧
        Covers session.width names table := by
  apply @run_invariant
    (fun count table => ∃ names, Consistent table count names ∧ Covers session.width names table)
    (fun op => (∀ key, op.key? = some key →
        Key.ColonFree key ∧ (Utf8.encode key).length < 2 ^ 32) ∧
      ∀ key instant, op = .expireAt key instant → instant.IsRegular)
    9223372036854775808 0 session .empty ?_ steps hstart ⟨_, consistent_empty, covers_empty _⟩
    (fun op hop => ⟨hkeys op hop, hinstants op hop⟩) (by omega)
  rintro op count table clock ⟨hkey, hinstant⟩ ⟨names, h, hcovers⟩ hlimit
  refine (h.ends_operation hlimit clock.isRegular_now fun key hop => (hkey key hop).1).conseq ?_
  intro outcome after htransition
  exact hcovers.transition htransition
    (fun key hop => writable_of_length (hkey key hop).2) hinstant

/-- After any run from an empty store, every key that expires is listed in the
bucket of its expiry, and a sweep at any instant succeeds, removes exactly the
keys whose expiry has come, and leaves the rest listed. -/
theorem run_expiry_exact (session : Session) (hstart : session.engine = .ofTable .empty)
    (steps : List Step)
    (hkeys : ∀ op ∈ operations steps, ∀ key, op.key? = some key →
      Key.ColonFree key ∧ (Utf8.encode key).length < 2 ^ 32)
    (hinstants : ∀ op ∈ operations steps, ∀ key instant, op = .expireAt key instant →
      instant.IsRegular)
    (hcount : (operations steps).length < 2 ^ 63) :
    ∃ table, (session.run steps).2.engine = .ofTable table ∧ Indexed session.width table ∧
      ∀ now, ∃ report after,
        (sweep session.width now).run (.ofTable table) = (.ok report, .ofTable after) ∧
        Removes table (fun key => ∃ instant, table.expiryOf key = some instant ∧ instant ≤ now)
          after ∧
        Indexed session.width after := by
  rcases session.run_covers hstart steps hkeys hinstants hcount
    with ⟨table, hafter, names, hconsistent, hcovers⟩
  refine ⟨table, hafter, hcovers.indexed hconsistent, fun now => ?_⟩
  rcases hconsistent.ends_sweep_exact (by omega) hcovers now
    with ⟨_, after, hsweep, ⟨report, rfl⟩, hremoves, hindexed⟩
  exact ⟨report, after, hsweep, hremoves, hindexed⟩

/-- A value is given a later expiry than its first one.  An early sweep drops the
stale entry and puts the others back; a later one removes the list that is due
then, and leaves the value. -/
theorem run_expiry_exact_rescheduled :
    let session : Session := ⟨.ofTable .empty, ⟨0⟩, ⟨60, by decide, by decide⟩, .none⟩
    let late : Instant := .ofInt64 90000000000
    let between : Instant := .ofInt64 70000000000
    let now : Instant := .ofInt64 80000000000
    let steps : List Step := [.operation (.set "a" .null),
      .operation (.expireAt "a" (.ofInt64 5000000000)), .operation (.expireAt "a" late),
      .operation (.listCreate "b"), .operation (.listPush "b" .left .null),
      .operation (.expireAt "b" between),
      .clockSet (.ofInt64 61000000000), .operation .sweepNow]
    (∀ op ∈ operations steps, ∀ key, op.key? = some key →
        Key.ColonFree key ∧ (Utf8.encode key).length < 2 ^ 32) ∧
      (∀ op ∈ operations steps, ∀ key instant, op = .expireAt key instant → instant.IsRegular) ∧
      (operations steps).length < 2 ^ 63 ∧
      ∃ table, (session.run steps).2.engine = .ofTable table ∧
        table.expiryOf "a" = some late ∧ table.expiryOf "b" = some between ∧
        table.Lists (session.width.bucket late) "a" ∧
        ∃ report after,
          (sweep session.width now).run (.ofTable table) = (.ok report, .ofTable after) ∧
          after.Vacant "b" ∧ after.expiryOf "a" = some late ∧
          after.Lists (session.width.bucket late) "a" := by
  intro session late between now steps
  have hkeys : ∀ op ∈ operations steps, ∀ key, op.key? = some key →
      Key.ColonFree key ∧ (Utf8.encode key).length < 2 ^ 32 := by
    have hall : ((operations steps).all fun op => op.key?.all fun key =>
        decide (Key.ColonFree key ∧ (Utf8.encode key).length < 2 ^ 32)) = true := by
      decide +kernel
    intro op hop key hkey
    simpa [hkey] using List.all_eq_true.mp hall op hop
  have hinstants : ∀ op ∈ operations steps, ∀ key instant, op = .expireAt key instant →
      instant.IsRegular := by
    intro op hop key instant heq
    subst heq
    have hregular : ∀ instant ∈ [Instant.ofInt64 5000000000, late, between],
        instant.IsRegular := by
      decide
    apply hregular
    simp only [operations, steps, List.filterMap_cons, Step.operation?, List.filterMap_nil,
      List.mem_cons, reduceCtorEq, Operation.expireAt.injEq, List.not_mem_nil, or_false,
      false_or] at hop ⊢
    tauto
  have hcount : (operations steps).length < 2 ^ 63 := by decide
  rcases run_expiry_exact session rfl steps hkeys hinstants hcount
    with ⟨table, hafter, hindexed, hsweep⟩
  have hexpiries : (session.run steps).2.engine.table.expiryOf "a" = some late ∧
      (session.run steps).2.engine.table.expiryOf "b" = some between := by
    decide +kernel
  rw [hafter] at hexpiries
  have ha : table.expiryOf "a" = some late := hexpiries.1
  have hb : table.expiryOf "b" = some between := hexpiries.2
  rcases hsweep now with ⟨report, after, hrun, hremoves, hstill⟩
  have hgone : after.Vacant "b" := hremoves.vacant "b" (by decide) ⟨between, hb, by decide⟩
  have hkept : after.expiryOf "a" = some late := by
    refine (hremoves.expiryOf_kept (by decide) ?_).trans ha
    rintro ⟨instant, hinstant, hcome⟩
    rw [ha] at hinstant
    cases hinstant
    exact absurd hcome (by decide)
  exact ⟨hkeys, hinstants, hcount, table, hafter, ha, hb, hindexed "a" (by decide) late ha, report,
    after, hrun, hgone, hkept, hstill "a" (by decide) late hkept⟩

end Session
end StructuredStore
