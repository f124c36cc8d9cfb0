import StructuredStore.Proofs.Key.Collision
import StructuredStore.Proofs.Store.Locality

/-!
# Isolation between logical keys

An operation on one logical key changes nothing that belongs to another one,
unless one of the two keys reaches the other: a key such as `a:M:f` lies among
the fields of a map at `a`.  Keys that are apart are isolated in every state
and whatever calls fail.

Main results:

- `Operation.confined_perform_buckets`: what any operation on a key can touch.
- `Operation.isolated`: reads of a key that is apart answer the same before and
  after.
-/

namespace StructuredStore

open Engine

/-- Whether a physical key belongs to the logical one or to an expiry bucket. -/
def Key.OwnsOrBucket (key : String) (physical : Bytes) : Prop :=
  Owns key physical ∨ ∃ seconds, Owns (bucket seconds) physical

namespace Expiry

variable {width : BucketWidth} {now : Instant}

/-- Setting an expiry touches the key and one bucket. -/
theorem confined_setAt (key : String) (instant : Instant) :
    Confined (Key.OwnsOrBucket key) (setAt width now key instant) := by
  apply Confined.ite (.pure _)
  apply Confined.bind ((confined_stamp key instant).mono fun _ => Or.inl)
  intro _
  apply Confined.bind ((confined_enlist _ key).mono fun _ h => Or.inr ⟨_, h⟩)
  intro _
  exact .pure _

theorem confined_setIn (key : String) (span : Span) :
    Confined (Key.OwnsOrBucket key) (setIn width now key span) := by
  unfold setIn
  split
  · exact .throw _
  · exact confined_setAt key _

end Expiry

namespace Operation

/-- An operation that sets an expiry touches its key and a bucket. -/
theorem confined_scheduling (env : Environment) {op : Operation} {key : String}
    (hkey : op.key? = some key) (hschedules : op.schedules = true) :
    Confined (Key.OwnsOrBucket key) (op.perform env) := by
  cases op <;> cases hkey <;> cases hschedules
  case expireAt instant => exact .map _ (Expiry.confined_setAt key instant)
  case expireIn span => exact .map _ (Expiry.confined_setIn key span)

/-- An operation on a key changes only what the key and the expiry buckets
own. -/
theorem confined_perform_buckets (env : Environment) {op : Operation} {key : String}
    (hkey : op.key? = some key) : Confined (Key.OwnsOrBucket key) (op.perform env) := by
  by_cases hschedules : op.schedules = true
  · exact confined_scheduling env hkey hschedules
  · have hquiet : op.schedules = false := by simpa using hschedules
    exact (confined_perform env hkey hquiet).mono fun _ => Or.inl

/-- Logical keys that are apart are isolated: whichever calls of an operation on
one of them fail, every read of the other one, which is no bucket, answers what
it answered before, and a scan meets the same items. -/
theorem isolated (env seen : Environment) (engine : Engine) {op look : Operation}
    {key other : String} (hkey : op.key? = some key) (hother : look.key? = some other)
    (hreads : look.reads = true) (hapart : Key.Apart key other)
    (hreserved : Key.isReserved other = false) :
    let after := ((op.perform env).run engine).2.table
    (∃ outcome, (look.perform seen).run (ofTable engine.table) = (outcome, ofTable engine.table) ∧
        (look.perform seen).run (ofTable after) = (outcome, ofTable after)) ∧
      ∀ marker, after.rowsUnder (Key.itemStem other marker) =
        engine.table.rowsUnder (Key.itemStem other marker) := by
  intro after
  have hagree : engine.table.AgreeOff (Key.OwnsOrBucket key) after :=
    (confined_perform_buckets env hkey).agree engine
  have hdisjoint : ∀ physical, Key.Owns other physical → ¬ Key.OwnsOrBucket key physical := by
    intro physical howns htouched
    obtain hkey | ⟨seconds, hbucket⟩ := htouched
    · exact hapart.not_owns hkey howns
    · exact Key.not_owns_bucket hreserved howns hbucket
  constructor
  · exact (local_perform seen hother hreads).of_agreeOff hagree hdisjoint
  · intro marker
    exact ((hagree.agreeOn hdisjoint).rowsUnder fun _ => .under).symm

/-- A map is read as before when a key that only looks like one of its own is
deleted. -/
theorem isolated_beside_colon :
    let env : Environment := ⟨.ofInt64 0, ⟨60, by decide, by decide⟩, .none⟩
    let table := (Table.empty.insert (Key.ofText "a") (0x11 :: 1 :: List.replicate 15 0)).insert
      (Key.item "a" .map [0x66]) (0x00 :: List.replicate 8 0)
    let after := ((perform env (.set "a:x:f" (.int 1))).run (ofTable table)).2.table
    Key.Apart "a:x:f" "a" ∧ Key.isReserved "a" = false ∧
      (perform env (.mapEntries "a")).run (ofTable table) =
        (.ok (.entries [("f", .null)]), ofTable table) ∧
      (perform env (.mapEntries "a")).run (ofTable after) =
        (.ok (.entries [("f", .null)]), ofTable after) := by
  intro env table after
  have hapart : Key.Apart "a:x:f" "a" := ⟨by decide, by decide, by decide⟩
  have hreserved : Key.isReserved "a" = false := by decide
  have hbefore : (perform env (.mapEntries "a")).run (ofTable table) =
      (.ok (.entries [("f", .null)]), ofTable table) := by
    rfl
  obtain ⟨⟨outcome, hsame, hafter⟩, _⟩ := @isolated env env (ofTable table)
    (.set "a:x:f" (.int 1)) (.mapEntries "a") "a:x:f" "a" rfl rfl rfl hapart hreserved
  have houtcome := hbefore.symm.trans hsame
  cases houtcome
  exact ⟨hapart, hreserved, hbefore, hafter⟩

/-- A number at `a:M:f` is a field of the map at `a`. -/
theorem entries_of_reached_key :
    let session : Session := ⟨.ofTable .empty, ⟨0⟩, ⟨60, by decide, by decide⟩, .none⟩
    let steps : List Session.Step := [.operation (.mapCreate "a"), .operation (.mapEntries "a"),
      .operation (.set "a:M:f" (.int 1)), .operation (.mapEntries "a")]
    "a" ≠ "a:M:f" ∧ Key.isReserved "a" = false ∧ Key.isReserved "a:M:f" = false ∧
      (session.run steps).1 =
        [.ok .done, .ok (.entries []), .ok .done, .ok (.entries [("f", .int 1)])] := by
  decide +kernel

end Operation
end StructuredStore
