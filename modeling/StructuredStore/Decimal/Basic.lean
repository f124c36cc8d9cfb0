import StructuredStore.Binary64.Basic
import StructuredStore.DataError

/-!
# Fixed-point decimals

A decimal is a 64-bit coefficient over a power of ten.  Arithmetic is exact or
fails: products and powers that do not fit 128 bits, and coefficients that do
not fit 64 bits, are overflows.  Two decimals are equal when both parts are;
the numeric order is a separate comparison.
-/

namespace StructuredStore

/-- The number `coefficient` divided by ten to the power of `scale`. -/
structure Decimal where
  coefficient : Int64
  scale : Int32
deriving DecidableEq, Repr, Inhabited

namespace Decimal

/-! ## Bounded intermediate results -/

/-- The number as a coefficient, if it fits 64 bits. -/
def narrow (i : Int) : Except DataError Int64 :=
  if -9223372036854775808 ≤ i ∧ i ≤ 9223372036854775807 then .ok (Int64.ofInt i)
  else .error .overflow

/-- The number as a scale, if it fits 32 bits. -/
def narrowScale (i : Int) : Except DataError Int32 :=
  if -2147483648 ≤ i ∧ i ≤ 2147483647 then .ok (Int32.ofInt i)
  else .error .overflow

/-- The number, if it fits 128 bits. -/
def wide (i : Int) : Except DataError Int :=
  if -170141183460469231731687303715884105728 ≤ i ∧
      i ≤ 170141183460469231731687303715884105727 then .ok i
  else .error .overflow

/-- A power of ten that fits 128 bits: the exponent is at most 38. -/
def powerOfTen (exponent : Nat) : Except DataError Int :=
  if exponent ≤ 38 then .ok (Nat.pow 10 exponent : Nat) else .error .overflow

/-! ## Scales -/

/-- The same number at another scale.  Going to a smaller scale truncates
toward zero. -/
def rescale (a : Decimal) (scale : Int32) : Except DataError Decimal := do
  let difference := scale.toInt - a.scale.toInt
  if 0 ≤ difference then
    let factor ← powerOfTen difference.toNat
    let product ← wide (a.coefficient.toInt * factor)
    return ⟨← narrow product, scale⟩
  else
    match powerOfTen (-difference).toNat with
    | .ok factor => return ⟨← narrow (a.coefficient.toInt.tdiv factor), scale⟩
    | .error _ => return ⟨0, scale⟩

/-- The larger of two scales. -/
def commonScale (a b : Decimal) : Int32 :=
  if a.scale < b.scale then b.scale else a.scale

/-- The coefficients of both numbers at the larger of their scales. -/
def align (a b : Decimal) : Except DataError (Int64 × Int64) := do
  let x ← a.rescale (commonScale a b)
  let y ← b.rescale (commonScale a b)
  return (x.coefficient, y.coefficient)

/-! ## Arithmetic -/

/-- The sum, at the larger scale. -/
def add (a b : Decimal) : Except DataError Decimal := do
  let (x, y) ← align a b
  return ⟨← narrow (x.toInt + y.toInt), commonScale a b⟩

/-- The difference, at the larger scale. -/
def sub (a b : Decimal) : Except DataError Decimal := do
  let (x, y) ← align a b
  return ⟨← narrow (x.toInt - y.toInt), commonScale a b⟩

/-- The product, at the sum of the scales. -/
def mul (a b : Decimal) : Except DataError Decimal := do
  let coefficient ← narrow (a.coefficient.toInt * b.coefficient.toInt)
  let scale ← narrowScale (a.scale.toInt + b.scale.toInt)
  return ⟨coefficient, scale⟩

/-- The quotient, at the larger scale, truncated toward zero. -/
def div (a b : Decimal) : Except DataError Decimal := do
  if b.coefficient = 0 then throw .divideByZero
  let scale := commonScale a b
  let exponent := scale.toInt - a.scale.toInt + b.scale.toInt
  let factor ← powerOfTen exponent.natAbs
  if 0 ≤ exponent then
    let numerator ← wide (a.coefficient.toInt * factor)
    return ⟨← narrow (numerator.tdiv b.coefficient.toInt), scale⟩
  else
    let denominator ← wide (b.coefficient.toInt * factor)
    return ⟨← narrow (a.coefficient.toInt.tdiv denominator), scale⟩

/-! ## Comparison -/

/-- The floating-point number near the decimal: the rounded coefficient
divided by the power of ten computed with rounding. -/
def toBinary64 (a : Decimal) : Binary64 :=
  (Binary64.ofInt a.coefficient.toInt).div (Binary64.powerOfTen a.scale.toInt)

/-- The order of the numbers, whatever their scales.  Where the scales are too
far apart to align, the floating-point neighbours are compared instead, and
incomparable ones count as equal. -/
def compareValue (a b : Decimal) : Ordering :=
  match align a b with
  | .ok (x, y) => compare x.toInt y.toInt
  | .error _ => (a.toBinary64.compare? b.toBinary64).getD .eq

end Decimal
end StructuredStore
