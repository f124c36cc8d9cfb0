import StructuredStore.Time.Span
import StructuredStore.Time.TimeOfDay

/-!
# Instants

An instant is a second since the start of 1970 and nanoseconds within it.  The
second lies in the years that the calendar covers.  Frames and keys hold an
instant as a 64-bit count of nanoseconds, which covers only the years 1677 to
2262.

Main results:

- `toInt64?_ofInt64`: every 64-bit count is the count of its instant.
-/

namespace StructuredStore

/-- The first second of the calendar. -/
def firstSecond : Int := -8334601228800

/-- The last second of the calendar. -/
def lastSecond : Int := 8210266876799

/-- A point in time, possibly within a leap second. -/
structure Instant where
  seconds : Int
  nanos : Nat
  first_le : firstSecond ≤ seconds
  le_last : seconds ≤ lastSecond
  nanos_lt : nanos < 2 * 1000000000
deriving DecidableEq

namespace Instant

/-- The instant with the given parts, if there is one. -/
def ofParts? (seconds : Int) (nanos : Nat) : Option Instant :=
  if h : firstSecond ≤ seconds ∧ seconds ≤ lastSecond ∧ nanos < 2 * 1000000000 then
    some ⟨seconds, nanos, h.1, h.2.1, h.2.2⟩
  else none

/-! ## Order -/

/-- Whether one instant lies before another.  A leap second lies after all of
the second it extends. -/
def before (a b : Instant) : Prop :=
  a.seconds < b.seconds ∨ (a.seconds = b.seconds ∧ a.nanos < b.nanos)

instance : LT Instant := ⟨before⟩

instance : LE Instant := ⟨fun a b => ¬ before b a⟩

instance (a b : Instant) : Decidable (a < b) :=
  inferInstanceAs (Decidable (_ ∨ _))

instance (a b : Instant) : Decidable (a ≤ b) :=
  inferInstanceAs (Decidable (¬ (_ ∨ _)))

/-! ## Counts of nanoseconds -/

/-- The nanoseconds since the start of 1970. -/
def nanoseconds (instant : Instant) : Int :=
  instant.seconds * 1000000000 + instant.nanos

/-- The instant with the given count of nanoseconds, if the calendar covers
it; it is never within a leap second. -/
def ofNanoseconds? (count : Int) : Option Instant :=
  ofParts? (count / 1000000000) (count % 1000000000).toNat

/-- The instant with the given 64-bit count of nanoseconds. -/
def ofInt64 (count : Int64) : Instant :=
  have hlow : -9223372036854775808 ≤ count.toInt := count.le_toInt
  have hhigh : count.toInt ≤ 9223372036854775807 := count.toInt_le
  { seconds := count.toInt / 1000000000
    nanos := (count.toInt % 1000000000).toNat
    first_le := by unfold firstSecond; omega
    le_last := by unfold lastSecond; omega
    nanos_lt := by omega }

/-- The count of nanoseconds, if it fits 64 bits. -/
def toInt64? (instant : Instant) : Option Int64 :=
  Span.toInt64? ⟨instant.nanoseconds⟩

/-- The instant a length of time later, if the calendar covers it.  A leap second
is a second of its own for the instants within it: a sum that stays there is
within it, too, and one that comes behind it has spent that second. -/
def add? (instant : Instant) (span : Span) : Option Instant :=
  let nanos := instant.nanos + span.nanoseconds
  if instant.nanos < 1000000000 ∨ nanos < 1000000000 then
    ofNanoseconds? (instant.seconds * 1000000000 + nanos)
  else if nanos < 2 * 1000000000 then ofParts? instant.seconds nanos.toNat
  else ofNanoseconds? (instant.seconds * 1000000000 + nanos - 1000000000)

/-- A 64-bit count is counted back. -/
@[simp]
theorem nanoseconds_ofInt64 (count : Int64) :
    (ofInt64 count).nanoseconds = count.toInt := by
  simp only [ofInt64, nanoseconds]
  omega

/-- Every 64-bit count is that of its instant. -/
@[simp]
theorem toInt64?_ofInt64 (count : Int64) : (ofInt64 count).toInt64? = some count := by
  rw [toInt64?, nanoseconds_ofInt64]
  exact Span.toInt64?_ofInt64 count

/-- The count of an instant is the number of its nanoseconds. -/
theorem toInt_of_toInt64? {instant : Instant} {count : Int64}
    (h : instant.toInt64? = some count) : count.toInt = instant.nanoseconds :=
  congrArg Span.nanoseconds (Span.ofInt64_of_toInt64? h)

end Instant
end StructuredStore
