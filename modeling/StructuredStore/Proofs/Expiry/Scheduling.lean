import StructuredStore.Proofs.Expiry.Entries

/-!
# Expiries that are set while calls fail

Setting an expiry writes the frame of the key and then enlists the key.  When a
call in between fails, the key keeps the new expiry and no bucket lists it, so
no sweep removes it.  Nothing else can go wrong: the entries of all keys stay
where they are, no other key gets an expiry, and an attempt that succeeds lists
the key.

Main results:

- `Schedules`, `endures_setAt`: what becomes of entries and expiries.
- `Operation.filed_beside_requested`: whichever calls fail, only the expiry that
  was asked for can lack its entry, and only if the operation failed.
- `Operation.expireAt_broken_unfiled`: and it can.
-/

namespace StructuredStore

open Engine Store

namespace Expiry

/-! ## Setting an expiry -/

/-- What setting the expiry of a key leads to, wherever it is broken off: all
entries stay, and each expiry is as it was or gone, or is the key's new one. -/
structure Schedules (key : String) (instant : Instant) (table after : Table) : Prop where
  entry : ∀ seconds name, table.HasEntry (Key.bucket seconds) name →
    after.HasEntry (Key.bucket seconds) name
  expiry : ∀ other, after.expiryOf other = table.expiryOf other ∨ after.expiryOf other = none ∨
    other = key ∧ after.expiryOf other = Frame.asStored (some instant)

variable {table between after : Table} {key : String} {instant : Instant}

namespace Schedules

theorem refl (key : String) (instant : Instant) (table : Table) :
    Schedules key instant table table :=
  ⟨fun _ _ h => h, fun _ => Or.inl rfl⟩

/-- The frame of the key is written with the new expiry. -/
theorem of_stamp {frame : Frame} {bytes : Bytes} (h : table.HasFrame (Key.ofText key) frame)
    (hencode : Frame.encode ⟨frame.value, some instant⟩ = .ok bytes) :
    Schedules key instant table (table.insert (Key.ofText key) bytes) := by
  constructor
  · intro seconds name hentry
    exact hentry.of_values fun _ _ _ hother => h.restamp hencode hother
  · intro other
    rw [table.expiryOf_insert other hencode]
    split
    · rename_i heq
      exact Or.inr (Or.inr ⟨(Utf8.encode_injective heq).symm, rfl⟩)
    · exact Or.inl rfl

/-- The key is enlisted in a bucket. -/
theorem trans_keeps {seconds : Int64} (h : Schedules key instant table between)
    (hkeeps : Keeps (Key.bucket seconds) between after) : Schedules key instant table after := by
  constructor
  · intro other name hentry
    have hbetween := h.entry other name hentry
    by_cases hsame : Key.bucket other = Key.bucket seconds
    · rw [hsame] at hbetween ⊢
      exact hkeeps.entry name hbetween
    · exact hbetween.congr (hkeeps.agree.other (.bucket seconds) (.bucket other) hsame)
  · intro other
    rcases hkeeps.expiry other with hsame | hnone
    · rw [hsame]
      exact h.expiry other
    · exact Or.inr (Or.inl hnone)

end Schedules

/-- Writing an expiry, wherever it is broken off; no list gets out of order. -/
theorem endures_stamp_schedules (table : Table) (key : String) (instant : Instant) :
    Endures table (stamp key instant) fun _ after => Schedules key instant table after ∧
      ∀ bucket, Orderly table bucket → Orderly after bucket := by
  apply (endures_stamp table key instant).conseq
  intro _ after hafter
  rcases hafter with rfl | ⟨frame, bytes, hframe, hencode, rfl⟩
  · exact ⟨.refl key instant _, fun _ h => h⟩
  · exact ⟨.of_stamp hframe hencode, fun _ h => h.restamp hframe hencode⟩

/-- Setting an expiry, wherever it is broken off. -/
theorem endures_setAt (table : Table) (width : BucketWidth) (now : Instant) (key : String)
    (instant : Instant) :
    Endures table (setAt width now key instant) fun outcome after => after = table ∨
      ¬ instant ≤ now ∧ Schedules key instant table after ∧
        Files (width.bucket instant) key table outcome after := by
  apply Endures.ite
  · exact fun _ => .pure (Or.inl rfl)
  intro hfuture
  suffices h : Endures table (do stamp key instant; enlist (width.bucket instant) key; return true)
      fun outcome after => Schedules key instant table after ∧
        Files (width.bucket instant) key table outcome after from
    h.conseq fun _ _ hafter => Or.inr ⟨hfuture, hafter⟩
  apply Endures.bind (endures_stamp_schedules table key instant)
  · exact fun _ _ h => ⟨h.1, fun _ _ heq => by cases heq⟩
  intro _ between ⟨hbetween, horder⟩
  apply Endures.bind (endures_enlist between (width.bucket instant) key)
  · exact fun _ _ hafter => ⟨hbetween.trans_keeps hafter.keeps, fun _ _ heq => by cases heq⟩
  · intro _ after hafter
    apply Endures.pure
    refine ⟨hbetween.trans_keeps hafter.keeps, fun hold _ _ => ?_⟩
    exact hafter.listed (horder _ hold) _ rfl

end Expiry

/-! ## Operations -/

namespace Operation

/-- The instant at which an operation lets its key expire, if it does so. -/
def requested? (now : Instant) : Operation → Option Instant
  | .expireAt _ instant => some instant
  | .expireIn _ span => now.add? span
  | _ => none

/-- An operation that sets an expiry, wherever it is broken off. -/
theorem endures_scheduling (table : Table) (env : Environment) {op : Operation} {key : String}
    (hkey : op.key? = some key) (hschedules : op.schedules = true) :
    Endures table (op.perform env) fun outcome after => after = table ∨
      ∃ instant, op.requested? env.now = some instant ∧ ¬ instant ≤ env.now ∧
        Expiry.Schedules key instant table after ∧
        Expiry.Files (env.width.bucket instant) key table outcome after := by
  have hset : ∀ (op : Operation) (f : Bool → Reply) (instant : Instant),
      op.requested? env.now = some instant →
      Endures table (f <$> Expiry.setAt env.width env.now key instant) fun outcome after =>
        after = table ∨ ∃ instant, op.requested? env.now = some instant ∧
          ¬ instant ≤ env.now ∧ Expiry.Schedules key instant table after ∧
          Expiry.Files (env.width.bucket instant) key table outcome after := by
    intro op f instant hrequested
    apply Endures.map
    apply (Expiry.endures_setAt table env.width env.now key instant).conseq
    intro outcome after h
    rcases h with hsame | ⟨hfuture, hafter, hfiles⟩
    · exact Or.inl hsame
    · refine Or.inr ⟨instant, hrequested, hfuture, hafter, fun horder a heq => ?_⟩
      cases outcome with
      | error e => cases heq
      | ok b => exact hfiles horder b rfl
  cases op <;> cases hkey <;> cases hschedules
  case expireAt instant => exact hset _ _ instant rfl
  case expireIn span =>
    simp only [Operation.perform, Expiry.setIn]
    cases hadd : env.now.add? span with
    | none => exact .map _ (.throw (Or.inl rfl))
    | some instant => exact hset (.expireIn key span) _ instant hadd

/-- Whichever calls of an operation fail that sets an expiry, all entries stay,
and every key that expires afterwards has its entry, unless it is the
operation's own key with the expiry that was asked for.  An operation that
succeeds lists that one too, in the bucket of the instant that was asked for. -/
theorem filed_beside_requested (env : Environment) (engine : Engine) {op : Operation}
    {key : String} (hkey : op.key? = some key) (hschedules : op.schedules = true)
    (hfiled : Filed env.width engine.table) :
    let outcome := ((op.perform env).run engine).1
    let after := ((op.perform env).run engine).2.table
    (∀ seconds name, engine.table.HasEntry (Key.bucket seconds) name →
      after.HasEntry (Key.bucket seconds) name) ∧
    ∀ other instant, after.expiryOf other = some instant →
      after.HasEntry (env.width.bucket instant) other ∨
        other = key ∧ ∃ requested, op.requested? env.now = some requested ∧
          ¬ requested ≤ env.now ∧ Frame.asStored (some requested) = some instant ∧
          Expiry.Files (env.width.bucket requested) key engine.table outcome after := by
  intro outcome after
  have hafter := (endures_scheduling engine.table env hkey hschedules).ends engine.faults
  rcases hafter with hsame | ⟨requested, hrequested, hfuture, hleft, hfiles⟩
  · have hsame : after = engine.table := hsame
    rw [hsame]
    exact ⟨fun _ _ h => h, fun other instant h => Or.inl (hfiled other instant h)⟩
  · refine ⟨hleft.entry, fun other instant hexpiry => ?_⟩
    rcases hleft.expiry other with hold | hnone | ⟨hother, hnew⟩
    · exact Or.inl (hleft.entry _ other (hfiled other instant (hold.symm.trans hexpiry)))
    · cases hnone.symm.trans hexpiry
    · exact Or.inr ⟨hother, requested, hrequested, hfuture, hnew.symm.trans hexpiry, hfiles⟩

/-- The second of three writes fails: the item of the key is there, but the
metadata of the bucket does not count it.  The other key keeps its entry. -/
theorem filed_beside_requested_uncounted :
    let env : Environment := ⟨.ofInt64 0, ⟨60, by decide, by decide⟩, .none⟩
    let session : Session := ⟨.ofTable .empty, ⟨0⟩, env.width, .none⟩
    let steps : List Session.Step := [.operation (.set "a" .null),
      .operation (.expireAt "a" (.ofInt64 70000000000)), .operation (.set "k" .null)]
    let engine : Engine := ⟨(session.run steps).2.engine.table, some (.after [.set] 2)⟩
    let op : Operation := .expireAt "k" (.ofInt64 90000000000)
    let after := ((op.perform env).run engine).2.table
    op.key? = some "k" ∧ op.schedules = true ∧ Filed env.width engine.table ∧
      after.expiryOf "a" = some (.ofInt64 70000000000) ∧
      after.HasEntry (env.width.bucket (.ofInt64 70000000000)) "a" ∧
      after.expiryOf "k" = op.requested? env.now := by
  intro env session steps engine op after
  have hentry : engine.table.HasEntry (env.width.bucket (.ofInt64 70000000000)) "a" :=
    ⟨⟨0, 0, 1⟩, none, by decide +kernel, 0, by decide, by decide, none, by decide +kernel⟩
  have hfiled : Filed env.width engine.table := by
    have hrows : ∀ row ∈ engine.table.rows, ∀ instant ∈ Frame.storedExpiry row.2,
        row.1 = Key.ofText "a" ∧ instant = .ofInt64 70000000000 := by
      decide +kernel
    apply filed_of_rows
    intro row hrow instant hinstant
    have hsame := hrows row hrow instant hinstant
    exact ⟨"a", hsame.1.symm, hsame.2 ▸ hentry⟩
  have hexpiries : after.expiryOf "a" = some (.ofInt64 70000000000) ∧
      after.expiryOf "k" = op.requested? env.now := by
    decide +kernel
  have hkey : op.key? = some "k" := rfl
  have hkept := (filed_beside_requested env engine hkey rfl hfiled).2 "a" _ hexpiries.1
  have hstill := hkept.resolve_right fun hown => absurd hown.1 (by decide)
  exact ⟨hkey, rfl, hfiled, hexpiries.1, hstill, hexpiries.2⟩

/-- The write of the bucket fails behind that of the frame: the key expires, no
bucket lists it, and a sweep after the expiry finds nothing to do. -/
theorem expireAt_broken_unfiled :
    let env : Environment := ⟨.ofInt64 0, ⟨60, by decide, by decide⟩, .none⟩
    let table := Table.empty.insert (Key.ofText "k") (0x00 :: List.replicate 8 0)
    let instant : Instant := .ofInt64 90000000000
    let broken := ((Operation.expireAt "k" instant).perform env).run
      ⟨table, some (.after [.set] 1)⟩
    let left := broken.2.table
    Filed env.width table ∧ broken.1 = .error (.io .injected) ∧
      left.expiryOf "k" = some instant ∧ ¬ left.HasEntry (env.width.bucket instant) "k" ∧
      (Expiry.sweep env.width (.ofInt64 200000000000)).run (.ofTable left) =
        (.ok .zero, .ofTable left) := by
  intro env table instant broken left
  have hfiled : Filed env.width table := by
    have hrows : ∀ row ∈ table.rows, Frame.storedExpiry row.2 = none := by
      decide +kernel
    apply filed_of_rows
    intro row hrow instant hinstant
    cases (hrows row hrow).symm.trans hinstant
  have habsent : left.get? (Key.ofText (env.width.bucket instant)) = none := by
    decide +kernel
  have hunlisted : ¬ left.HasEntry (env.width.bucket instant) "k" := by
    intro ⟨_, _, hframe, _⟩
    exact hframe.get?_ne_none habsent
  have hbroken : broken.1 = .error (.io .injected) ∧ left.expiryOf "k" = some instant := by
    decide +kernel
  have hsweep : (Expiry.sweep env.width (.ofInt64 200000000000)).run (.ofTable left) =
      (.ok .zero, .ofTable left) := by
    rfl
  exact ⟨hfiled, hbroken.1, hbroken.2, hunlisted, hsweep⟩

end Operation
end StructuredStore
