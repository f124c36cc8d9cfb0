import StructuredStore.Text.Numeral

/-!
# Times of day

A time of day is a second since midnight and nanoseconds within it.  Any second
may be followed by a leap second, and its nanoseconds then run on to two whole
seconds.
-/

namespace StructuredStore

/-- A time of day, possibly within a leap second. -/
structure TimeOfDay where
  seconds : Nat
  nanos : Nat
  seconds_lt : seconds < 86400
  nanos_lt : nanos < 2000000000
deriving DecidableEq

namespace TimeOfDay

/-- The time with the given parts, if there is one. -/
def ofParts? (seconds nanos : Nat) : Option TimeOfDay :=
  if h : seconds < 86400 ∧ nanos < 2000000000 then
    some ⟨seconds, nanos, h.1, h.2⟩
  else none

/-- The nanoseconds since midnight. -/
def nanoseconds (time : TimeOfDay) : Nat :=
  time.seconds * 1000000000 + time.nanos

/-- Three, six or nine digits after a point, as few as show the nanoseconds
exactly, and nothing for a whole second. -/
def fractionText (nanos : Nat) : List Char :=
  if nanos = 0 then []
  else if nanos % 1000000 = 0 then '.' :: Numeral.fixedDigits 3 (nanos / 1000000)
  else if nanos % 1000 = 0 then '.' :: Numeral.fixedDigits 6 (nanos / 1000)
  else '.' :: Numeral.fixedDigits 9 nanos

/-- Hours, minutes and seconds; a leap second counts as one second more, so that at
the end of a minute it is the second number 60. -/
def clockText (seconds nanos : Nat) : List Char :=
  let leap := if 1000000000 ≤ nanos then 1 else 0
  Numeral.fixedDigits 2 (seconds / 3600) ++ ':' ::
    Numeral.fixedDigits 2 (seconds / 60 % 60) ++ ':' ::
    Numeral.fixedDigits 2 (seconds % 60 + leap) ++
    fractionText (nanos - leap * 1000000000)

/-- The time of day as text. -/
def toText (time : TimeOfDay) : String :=
  String.ofList (clockText time.seconds time.nanos)

end TimeOfDay
end StructuredStore
