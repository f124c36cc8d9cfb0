import StructuredStore.Decimal.Basic

/-!
# Decimals as text

A decimal is written in full: a positive scale is the number of digits after
the point, a negative one is a run of zeros.  Digits after the point are padded
to a width, and no width is larger than a 16-bit number: a decimal with more
digits there cannot be shown.  Reading takes the number of digits after the point
as the scale.
-/

namespace StructuredStore.Decimal

/-- The decimal as text. -/
def toText (a : Decimal) : String :=
  let scale := a.scale.toInt
  if scale ≤ 0 then
    String.ofList
      ((Numeral.ofInt a.coefficient.toInt).toList ++ List.replicate (-scale).toNat '0')
  else
    let width := scale.toNat
    let written := Numeral.digits a.coefficient.toInt.natAbs
    let padded := List.replicate (width + 1 - written.length) '0' ++ written
    let whole := padded.take (padded.length - width)
    let fraction := padded.drop (padded.length - width)
    let sign := if a.coefficient < 0 then ['-'] else []
    String.ofList (sign ++ whole ++ '.' :: fraction)

/-- The largest width to which digits can be padded. -/
def maxWidth : Nat := 65535

/-- The decimal as it is shown, if its digits after the point can be padded. -/
def toText? (a : Decimal) : Option String :=
  if a.scale.toInt ≤ maxWidth then some a.toText else none

/-- Reads a decimal: the digits before and after the first point together are
the coefficient. -/
def ofText (text : String) : Except DataError Decimal :=
  let cs := text.toList
  let whole := cs.takeWhile (· ≠ '.')
  let fraction := (cs.dropWhile (· ≠ '.')).drop 1
  let refused := .error (.corrupt (.notDecimal text))
  if whole.isEmpty && fraction.isEmpty then refused
  else if !fraction.all Char.isDigit then refused
  else
    match Numeral.readInt64 (String.ofList (whole ++ fraction)) with
    | .error _ => refused
    | .ok coefficient =>
        match narrowScale fraction.length with
        | .ok scale => .ok ⟨coefficient, scale⟩
        | .error fault => .error fault

end StructuredStore.Decimal
