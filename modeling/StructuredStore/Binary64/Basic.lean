/-!
# Binary floating-point numbers

Double-precision numbers as their 64 bits, with the operations that the store
performs on them.  Every operation is the exact result on whole multiples of
the smallest positive number, rounded once to the nearest representable one,
ties to an even significand.
-/

namespace StructuredStore

/-- A double-precision number, given by its bits. -/
structure Binary64 where
  bits : UInt64
deriving DecidableEq, Repr, Inhabited

namespace Binary64

/-! ## Fields of the bits -/

/-- What the bits of a number stand for.  A finite number is `significand`
times two to the power of `exponent`, in units of the smallest positive
number. -/
inductive Shape where
  | nan
  | infinite (negative : Bool)
  | finite (negative : Bool) (significand exponent : Nat)
deriving DecidableEq, Repr

/-- Two to the power of 52: the number of significands of one exponent. -/
def significands : Nat := 4503599627370496

/-- How many of the smallest positive number make one. -/
def unitsPerOne : Nat := Nat.pow 2 1074

/-- The bits of infinity. -/
def infinityBits : Nat := 0x7ff0000000000000

/-- The sign bit. -/
def signBit : Nat := 0x8000000000000000

/-- What a number stands for. -/
def shape (x : Binary64) : Shape :=
  let n := x.bits.toNat
  let negative := decide (signBit ≤ n)
  let biased := n / significands % 2048
  let fraction := n % significands
  if biased = 2047 then
    if fraction = 0 then .infinite negative else .nan
  else if biased = 0 then .finite negative fraction 0
  else .finite negative (significands + fraction) (biased - 1)

/-- The number with the given sign and the given other bits. -/
def ofSign (negative : Bool) (magnitude : Nat) : Binary64 :=
  ⟨UInt64.ofNat (if negative then signBit + magnitude else magnitude)⟩

/-- The quiet number that is no number. -/
def nan : Binary64 := ⟨0x7ff8000000000000⟩

/-- The infinite number of the given sign. -/
def infinity (negative : Bool) : Binary64 := ofSign negative infinityBits

/-- Whether the number is neither infinite nor NaN. -/
def isFinite (x : Binary64) : Bool :=
  match x.shape with
  | .finite .. => true
  | _ => false

/-- Whether the bits stand for no number. -/
def isNaN (x : Binary64) : Bool :=
  match x.shape with
  | .nan => true
  | _ => false

/-! ## Rounding -/

/-- The whole number nearest to `num / den`, a half going to the even one. -/
def roundHalfEven (num den : Nat) : Nat :=
  let quotient := num / den
  let twice := 2 * (num % den)
  if twice < den then quotient
  else if den < twice then quotient + 1
  else quotient + quotient % 2

/-- The number nearest to `num / den` units. -/
def ofUnits (negative : Bool) (num den : Nat) : Binary64 :=
  let exponent := Nat.log2 (num / den) - 52
  let magnitude :=
    exponent * significands + roundHalfEven num (den * Nat.pow 2 exponent)
  ofSign negative (min magnitude infinityBits)

/-- The number nearest to `num / den`. -/
def ofRatio (negative : Bool) (num den : Nat) : Binary64 :=
  ofUnits negative (num * unitsPerOne) den

/-- The number nearest to a whole number. -/
def ofInt (i : Int) : Binary64 :=
  ofRatio (decide (i < 0)) i.natAbs 1

/-! ## Arithmetic -/

/-- A finite number's multiple of the smallest positive one. -/
def signedUnits (negative : Bool) (significand exponent : Nat) : Int :=
  let magnitude : Int := (significand * Nat.pow 2 exponent : Nat)
  if negative then -magnitude else magnitude

/-- The rounded sum.  A sum of zero is negative only if both parts are. -/
def add (x y : Binary64) : Binary64 :=
  match x.shape, y.shape with
  | .nan, _ => nan
  | _, .nan => nan
  | .infinite s, .infinite t => if s = t then x else nan
  | .infinite _, .finite .. => x
  | .finite .., .infinite _ => y
  | .finite s m e, .finite t n f =>
      let sum := signedUnits s m e + signedUnits t n f
      ofUnits (if sum = 0 then s && t else decide (sum < 0)) sum.natAbs 1

/-- The rounded product. -/
def mul (x y : Binary64) : Binary64 :=
  match x.shape, y.shape with
  | .nan, _ => nan
  | _, .nan => nan
  | .infinite s, .infinite t => infinity (s != t)
  | .infinite s, .finite t n _ => if n = 0 then nan else infinity (s != t)
  | .finite s m _, .infinite t => if m = 0 then nan else infinity (s != t)
  | .finite s m e, .finite t n f =>
      ofUnits (s != t) (m * n * Nat.pow 2 (e + f)) unitsPerOne

/-- The rounded quotient. -/
def div (x y : Binary64) : Binary64 :=
  match x.shape, y.shape with
  | .nan, _ => nan
  | _, .nan => nan
  | .infinite _, .infinite _ => nan
  | .infinite s, .finite t _ _ => infinity (s != t)
  | .finite s _ _, .infinite t => ofSign (s != t) 0
  | .finite s m e, .finite t n f =>
      if n = 0 then if m = 0 then nan else infinity (s != t)
      else ofRatio (s != t) (m * Nat.pow 2 e) (n * Nat.pow 2 f)

/-- The order of two numbers, if they are comparable. -/
def compare? (x y : Binary64) : Option Ordering :=
  match x.shape, y.shape with
  | .nan, _ => none
  | _, .nan => none
  | .infinite s, .infinite t =>
      some (if s = t then .eq else if s then .lt else .gt)
  | .infinite s, .finite .. => some (if s then .lt else .gt)
  | .finite .., .infinite t => some (if t then .gt else .lt)
  | .finite s m e, .finite t n f =>
      some (compare (signedUnits s m e) (signedUnits t n f))

/-- Repeated squaring: the product of `acc` and `base` to the power of `k`,
each step rounded. -/
def powerLoop (acc base : Binary64) (k : Nat) : Binary64 :=
  let acc := if k % 2 = 1 then acc.mul base else acc
  if k / 2 = 0 then acc
  else powerLoop acc (base.mul base) (k / 2)
termination_by k

/-- A power of ten, each step rounded; a negative power is the reciprocal of
the positive one. -/
def powerOfTen (n : Int) : Binary64 :=
  let power := powerLoop (ofInt 1) (ofInt 10) n.natAbs
  if n < 0 then (ofInt 1).div power else power

end Binary64
end StructuredStore
