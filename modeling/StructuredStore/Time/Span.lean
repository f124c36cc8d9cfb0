import StructuredStore.Text.Numeral

/-!
# Lengths of time

A length of time is a whole number of nanoseconds of either sign.
-/

namespace StructuredStore

/-- A length of time. -/
structure Span where
  nanoseconds : Int
deriving DecidableEq, Repr, Inhabited

namespace Span

/-- The length as a 64-bit count of nanoseconds, if it fits. -/
def toInt64? (span : Span) : Option Int64 :=
  if -9223372036854775808 ≤ span.nanoseconds ∧
      span.nanoseconds ≤ 9223372036854775807 then
    some (Int64.ofInt span.nanoseconds)
  else none

/-- The length with the given count of nanoseconds. -/
def ofInt64 (nanoseconds : Int64) : Span :=
  ⟨nanoseconds.toInt⟩

/-- Every 64-bit count is that of its length of time. -/
@[simp]
theorem toInt64?_ofInt64 (nanoseconds : Int64) :
    (ofInt64 nanoseconds).toInt64? = some nanoseconds := by
  have hlow : -9223372036854775808 ≤ nanoseconds.toInt := nanoseconds.le_toInt
  have hhigh : nanoseconds.toInt ≤ 9223372036854775807 := nanoseconds.toInt_le
  unfold toInt64? ofInt64
  rw [if_pos ⟨hlow, hhigh⟩]
  simp

/-- A length of time is that of its count, if it has one. -/
theorem ofInt64_of_toInt64? {span : Span} {nanoseconds : Int64}
    (h : span.toInt64? = some nanoseconds) : ofInt64 nanoseconds = span := by
  unfold toInt64? at h
  split at h
  · rename_i hrange
    cases h
    simp only [ofInt64]
    rw [Int64.toInt_ofInt_of_le (by omega) (by omega)]
  · cases h

/-- The length in the short form of the international standard: seconds and
their fraction without zeros at the end, and the zero length as no days. -/
def toText (span : Span) : String :=
  let sign := if span.nanoseconds < 0 then "-" else ""
  let magnitude := span.nanoseconds.natAbs
  if magnitude = 0 then "P0D"
  else
    let fraction :=
      ((Numeral.fixedDigits 9 magnitude).reverse.dropWhile (· == '0')).reverse
    let fraction := if fraction.isEmpty then [] else '.' :: fraction
    sign ++ "PT" ++ Numeral.ofNat (magnitude / 1000000000) ++ String.ofList fraction ++ "S"

end Span
end StructuredStore
