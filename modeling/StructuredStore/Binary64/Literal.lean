import StructuredStore.Binary64.Basic
import StructuredStore.Text.Numeral

/-!
# Floating-point literals

A literal is an optional sign and then either one of the words for infinity
and NaN, in any case, or digits with an optional point and an optional decimal
exponent.  It stands for the nearest number; what is too large is infinite.
-/

namespace StructuredStore.Binary64

/-- Why a text is no literal. -/
inductive LiteralFault where
  | empty
  | invalid
deriving DecidableEq, Repr

/-- The wording of a refused literal. -/
def LiteralFault.message : LiteralFault → String
  | .empty => "cannot parse float from empty string"
  | .invalid => "invalid float literal"

/-- Splits a sign off the front. -/
def splitSign : List Char → Bool × List Char
  | '-' :: cs => (true, cs)
  | '+' :: cs => (false, cs)
  | cs => (false, cs)

/-- The decimal exponent that follows the digits, if it is well formed. -/
def readExponent : List Char → Option Int
  | [] => some 0
  | mark :: cs =>
      let (negative, ds) := splitSign cs
      if (mark == 'e' || mark == 'E') && !ds.isEmpty && ds.all Char.isDigit then
        some (if negative then -(Numeral.value ds : Int) else (Numeral.value ds : Int))
      else none

/-- The number nearest to `mantissa` times ten to the power of `exponent`.
Beyond the largest and below the smallest exponents the result is infinite or
zero without computing the power. -/
def ofDecimal (negative : Bool) (mantissa : Nat) (exponent : Int) : Binary64 :=
  let size := ((Numeral.digits mantissa).length : Int) + exponent
  if mantissa = 0 ∨ size < -330 then ofSign negative 0
  else if 310 < size then infinity negative
  else
    ofRatio negative (mantissa * Nat.pow 10 exponent.toNat) (Nat.pow 10 (-exponent).toNat)

/-- The number that a literal without its sign stands for. -/
def readMagnitude (negative : Bool) (cs : List Char) : Option Binary64 :=
  let whole := cs.takeWhile Char.isDigit
  let rest := cs.dropWhile Char.isDigit
  let (fraction, rest) :=
    match rest with
    | '.' :: tail => (tail.takeWhile Char.isDigit, tail.dropWhile Char.isDigit)
    | _ => ([], rest)
  if whole.isEmpty && fraction.isEmpty then none
  else
    (readExponent rest).map fun exponent =>
      ofDecimal negative (Numeral.value (whole ++ fraction)) (exponent - fraction.length)

/-- Reads a literal. -/
def ofLiteral (text : String) : Except LiteralFault Binary64 :=
  if text.isEmpty then .error .empty
  else
    let (negative, cs) := splitSign text.toList
    let word := String.ofList (cs.map Char.toLower)
    if word = "inf" ∨ word = "infinity" then .ok (infinity negative)
    else if word = "nan" then .ok (if negative then ofSign true nan.bits.toNat else nan)
    else
      match readMagnitude negative cs with
      | some x => .ok x
      | none => .error .invalid

end StructuredStore.Binary64
