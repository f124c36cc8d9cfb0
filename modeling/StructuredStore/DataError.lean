import StructuredStore.Kind
import StructuredStore.Text.Numeral
import StructuredStore.Text.Quoted

/-!
# Faults of stored and computed values

Why a frame cannot be read or written, and why a number cannot be computed.
Every fault is a cause; the wording is in one function.
-/

namespace StructuredStore

/-- In which way stored data, or the text of a decimal, is malformed. -/
inductive Corruption where
  /-- The frame is too short for its tag and expiry. -/
  | shortFrame (length : Nat)
  /-- A field starting at `position` runs past the end of the payload. -/
  | truncated (kind : Kind) (position : Nat)
  /-- A text field is not well-formed UTF-8. -/
  | notUtf8 (kind : Kind)
  /-- Bytes are left over after the last field. -/
  | trailing (kind : Kind) (count : Nat)
  /-- The sign of a big integer is neither 0 nor 1. -/
  | signByte (byte : UInt8)
  /-- A big integer has no digits. -/
  | noMagnitude
  /-- A truth value is neither 0 nor 1. -/
  | boolByte (byte : UInt8)
  /-- A time of day lies before midnight. -/
  | negativeTime
  /-- A time of day lies past the end of the day. -/
  | timeOutOfRange
  /-- A list has a negative length, or is empty but not in its empty form. -/
  | listHandle (head tail length : Int64)
  /-- The text is not a decimal number. -/
  | notDecimal (text : String)
  /-- The first byte of a stored frame is no tag. -/
  | unknownTag (tag : UInt8)
  /-- An item that the list's metadata promises is absent. -/
  | missingItem (key : String) (index : Int64)
  /-- A field of a map is not well-formed UTF-8. -/
  | mapField (key : String)
  /-- A member of a set is not well-formed UTF-8. -/
  | setMember (key : String)
  /-- The key of an indexed item does not end in eight bytes. -/
  | selectorLength (length : Nat)
deriving DecidableEq, Repr

/-- The wording of a corruption. -/
def Corruption.message : Corruption → String
  | .shortFrame length =>
      "frame of " ++ Numeral.ofNat length ++ " bytes is shorter than its header"
  | .truncated kind position =>
      kind.name ++ " payload truncated at byte " ++ Numeral.ofNat position
  | .notUtf8 kind => kind.name ++ " payload is not UTF-8"
  | .trailing kind count =>
      kind.name ++ " payload has " ++ Numeral.ofNat count ++ " trailing bytes"
  | .signByte byte => "bad sign byte " ++ Numeral.ofNat byte.toNat
  | .noMagnitude => "biginteger has no magnitude"
  | .boolByte byte => "bad bool byte " ++ Numeral.ofNat byte.toNat
  | .negativeTime => "negative time of day"
  | .timeOutOfRange => "time of day out of range"
  | .listHandle head tail length =>
      "list handle \x7b" ++ Numeral.ofInt head.toInt ++ ", " ++ Numeral.ofInt tail.toInt ++
        ", " ++ Numeral.ofInt length.toInt ++ "\x7d is not a valid deque"
  | .notDecimal text => Quoted.quote text ++ " is not a decimal"
  | .unknownTag tag => "unknown type tag " ++ Numeral.ofNat tag.toNat
  | .missingItem key index =>
      "list " ++ Quoted.quote key ++ " is missing item " ++ Numeral.ofInt index.toInt
  | .mapField key => "map " ++ Quoted.quote key ++ " has a non-UTF-8 field"
  | .setMember key => "set " ++ Quoted.quote key ++ " has a non-UTF-8 member"
  | .selectorLength length =>
      "index selector has " ++ Numeral.ofNat length ++ " bytes"

/-- Why a value cannot be read, written or computed. -/
inductive DataError where
  /-- The value has another kind than was asked for. -/
  | typeMismatch (expected found : Kind)
  /-- The data does not have the shape that its kind promises. -/
  | corrupt (cause : Corruption)
  /-- The first byte of the frame is no tag. -/
  | unknownTag (tag : UInt8)
  /-- The result lies outside the range of its type. -/
  | overflow
  /-- The divisor is zero. -/
  | divideByZero
deriving DecidableEq, Repr

/-- Two lower-case hexadecimal digits. -/
private def twoHexDigits (byte : UInt8) : String :=
  String.ofList
    (Nat.toDigits 16 (byte.toNat / 16) ++ Nat.toDigits 16 (byte.toNat % 16))

/-- The wording of a fault outside the store. -/
def DataError.message : DataError → String
  | .typeMismatch expected found =>
      "type mismatch: expected " ++ expected.name ++ ", found " ++ found.name
  | .corrupt cause => "corrupt frame: " ++ cause.message
  | .unknownTag tag => "unknown type tag 0x" ++ twoHexDigits tag
  | .overflow => "numeric overflow"
  | .divideByZero => "division by zero"

end StructuredStore
