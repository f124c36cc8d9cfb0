import StructuredStore.Binary64.Basic
import StructuredStore.Text.Numeral

/-!
# Shortest decimal form

A finite number is shown with the fewest significant digits that read back as
the same number, without an exponent.
-/

namespace StructuredStore.Binary64

/-- The reals that round to one finite number, and the number itself, as
fractions over a common denominator. -/
structure RoundingInterval where
  low : Nat
  value : Nat
  high : Nat
  denominator : Nat
  /-- Whether the ends themselves round to the number. -/
  closed : Bool

/-- The rounding interval of `significand` times two to the power of
`exponent` units.  The gap below a power of two is half as wide. -/
def roundingInterval (significand exponent : Nat) : RoundingInterval :=
  let scale := Nat.pow 2 exponent
  let below := if significand = significands ∧ 0 < exponent then 1 else 2
  { low := (4 * significand - below) * scale
    value := 4 * significand * scale
    high := (4 * significand + 2) * scale
    denominator := 4 * unitsPerOne
    closed := significand % 2 = 0 }

namespace RoundingInterval

/-- Whether `digits / den` lies in an interval whose ends are `low / den` and
`high / den`. -/
def contains (low high digits : Nat) (closed : Bool) : Bool :=
  if closed then low ≤ digits && digits ≤ high
  else low < digits && digits < high

/-- The point of the grid of spacing ten to the power of `place` that reads
back: of the value's two neighbours the nearer one that lies in the interval,
the upper one if both are equally near. -/
def gridPoint? (interval : RoundingInterval) (place : Int) : Option Nat :=
  let up := Nat.pow 10 (-place).toNat
  let den := interval.denominator * Nat.pow 10 place.toNat
  let floor := interval.value * up / den
  let inside := fun digits =>
    contains (interval.low * up) (interval.high * up) (digits * den) interval.closed
  let lowerDistance := interval.value * up - floor * den
  let upperDistance := (floor + 1) * den - interval.value * up
  if inside floor && (!inside (floor + 1) || lowerDistance < upperDistance) then
    some floor
  else if inside (floor + 1) then some (floor + 1)
  else none

/-- The decimal exponent of the leading digit.  Every positive number times
ten to the power of 400 has a digit before the point. -/
def leadingPlace (interval : RoundingInterval) : Int :=
  let shifted := interval.value * Nat.pow 10 400 / interval.denominator
  ((Numeral.digits shifted).length : Int) - 401

/-- The first hit on the `fuel` grids of `used`, `used + 1`, … significant
digits, as the digits and the decimal exponent of the last one; without a hit,
all digits up to a place where only zeros follow the leading ones. -/
def search (interval : RoundingInterval) (leading : Int) : Nat → Nat → Nat × Int
  | 0, _ => (interval.value * Nat.pow 10 400 / interval.denominator, -400)
  | fuel + 1, used =>
      let place := leading + 1 - (used : Int)
      match interval.gridPoint? place with
      | some digits => (digits, place)
      | none => search interval leading fuel (used + 1)

end RoundingInterval

/-- The shortest digits of a positive finite number and the decimal exponent
of the last one; seventeen digits always suffice. -/
def shortest (significand exponent : Nat) : Nat × Int :=
  let interval := roundingInterval significand exponent
  interval.search interval.leadingPlace 17 1

/-- A number of tenths, hundredths and so on, written with a point and without
zeros at the end. -/
def positional (digits : Nat) (place : Int) : List Char :=
  if 0 ≤ place then
    Numeral.digits digits ++ List.replicate place.toNat '0'
  else
    let width := (-place).toNat
    let written := Numeral.digits digits
    let padded := List.replicate (width + 1 - written.length) '0' ++ written
    let whole := padded.take (padded.length - width)
    let fraction := padded.drop (padded.length - width)
    let fraction := (fraction.reverse.dropWhile (· == '0')).reverse
    if fraction.isEmpty then whole else whole ++ '.' :: fraction

/-- The number as it is shown: shortest digits, never an exponent, and no point
after a whole number. -/
def toText (x : Binary64) : String :=
  match x.shape with
  | .nan => "NaN"
  | .infinite negative => if negative then "-inf" else "inf"
  | .finite negative significand exponent =>
      let magnitude :=
        if significand = 0 then ['0']
        else
          let (digits, place) := shortest significand exponent
          positional digits place
      String.ofList (if negative then '-' :: magnitude else magnitude)

end StructuredStore.Binary64
