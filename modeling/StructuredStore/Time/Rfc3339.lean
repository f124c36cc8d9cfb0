import StructuredStore.Text.Utf8
import StructuredStore.Time.Calendar
import StructuredStore.Time.Instant

/-!
# Timestamps as text

Instants in the internet date and time format: a date, a time of day and an
offset from universal time.  Writing always uses the offset zero.  Reading
takes the parts from left to right and reports the first fault.
-/

namespace StructuredStore.Rfc3339

/-! ## Writing -/

/-- The year: four digits where they suffice, else a sign and at least four. -/
def yearText (year : Int) : List Char :=
  let written := Numeral.digits year.natAbs
  let padded := List.replicate (4 - written.length) '0' ++ written
  if 0 ≤ year ∧ year ≤ 9999 then padded
  else (if year < 0 then '-' else '+') :: padded

/-- The instant as text. -/
def toText (instant : Instant) : String :=
  let date := Date.ofDays (instant.seconds / 86400)
  String.ofList
    (yearText date.year ++ '-' :: Numeral.fixedDigits 2 date.month ++ '-' ::
      Numeral.fixedDigits 2 date.day ++ 'T' ::
      TimeOfDay.clockText (instant.seconds % 86400).toNat instant.nanos ++
      ['+', '0', '0', ':', '0', '0'])

/-! ## Reading -/

/-- Why a text is no timestamp. -/
inductive Fault where
  /-- The text ends too early. -/
  | tooShort
  /-- A part has an impossible value. -/
  | outOfRange
  /-- A character does not belong where it stands. -/
  | invalid
  /-- The text goes on after the offset. -/
  | tooLong
deriving DecidableEq, Repr

/-- The wording of a refused timestamp. -/
def Fault.message : Fault → String
  | .tooShort => "premature end of input"
  | .outOfRange => "input is out of range"
  | .invalid => "input contains invalid characters"
  | .tooLong => "trailing input"

/-- Whether a byte is an ASCII digit. -/
def isDigit (byte : UInt8) : Bool :=
  0x30 ≤ byte && byte ≤ 0x39

/-- Reads exactly `count` digits on top of the number read so far. -/
def readDigits : Nat → Nat → Bytes → Except Fault (Nat × Bytes)
  | 0, acc, rest => .ok (acc, rest)
  | _ + 1, _, [] => .error .tooShort
  | count + 1, acc, byte :: rest =>
      if isDigit byte then readDigits count (acc * 10 + (byte.toNat - 0x30)) rest
      else .error .invalid

/-- Reads one byte out of a set. -/
def expect (accepted : Bytes) : Bytes → Except Fault Bytes
  | [] => .error .tooShort
  | byte :: rest => if accepted.contains byte then .ok rest else .error .invalid

/-- Reads the fraction of a second, if there is one, in nanoseconds.  Digits
after the ninth are skipped. -/
def readFraction : Bytes → Except Fault (Nat × Bytes)
  | 0x2e :: [] => .error .tooShort
  | 0x2e :: rest =>
      let written := rest.takeWhile isDigit
      if written.isEmpty then .error .invalid
      else
        let nanos :=
          (List.range 9).foldl
            (fun n i => n * 10 + ((written[i]?.map (·.toNat - 0x30)).getD 0)) 0
        .ok (nanos, rest.dropWhile isDigit)
  | rest => .ok (0, rest)

/-- Reads the hours and minutes of an offset, in seconds. -/
def readOffsetTime (bytes : Bytes) : Except Fault (Nat × Bytes) := do
  if bytes.length < 2 then throw .tooShort
  let (hours, rest) ← readDigits 2 0 bytes
  let rest ← expect [0x3a] rest
  if rest.length < 2 then throw .tooShort
  let (minutes, rest) ← readDigits 2 0 rest
  if 60 ≤ minutes then throw .outOfRange
  return (hours * 3600 + minutes * 60, rest)

/-- Reads an offset from universal time, in seconds. -/
def readOffset : Bytes → Except Fault (Int × Bytes)
  | [] => .error .tooShort
  | 0x5a :: rest | 0x7a :: rest => .ok (0, rest)
  | 0x2b :: rest => (readOffsetTime rest).map fun (seconds, rest) => ((seconds : Int), rest)
  | 0x2d :: rest | 0xe2 :: 0x88 :: 0x92 :: rest =>
      (readOffsetTime rest).map fun (seconds, rest) => (-(seconds : Int), rest)
  | _ => .error .invalid

/-- Reads a timestamp.  The date has to exist before the time is looked at. -/
def ofText (text : String) : Except Fault Instant := do
  let bytes := Utf8.encode text
  if bytes.length < 19 then throw .tooShort
  let (year, rest) ← readDigits 4 0 bytes
  let rest ← expect [0x2d] rest
  let (month, rest) ← readDigits 2 0 rest
  let rest ← expect [0x2d] rest
  let (day, rest) ← readDigits 2 0 rest
  let some date := Date.ofParts? year month day | throw .outOfRange
  let rest ← expect [0x74, 0x54, 0x20] rest
  let (hour, rest) ← readDigits 2 0 rest
  let rest ← expect [0x3a] rest
  let (minute, rest) ← readDigits 2 0 rest
  let rest ← expect [0x3a] rest
  let (second, rest) ← readDigits 2 0 rest
  let (fraction, rest) ← readFraction rest
  let (second, nanos) := if second = 60 then (59, fraction + 1000000000) else (second, fraction)
  if 24 ≤ hour ∨ 60 ≤ minute ∨ 60 ≤ second then throw .outOfRange
  let (offset, rest) ← readOffset rest
  if !rest.isEmpty then throw .tooLong
  if 86400 ≤ offset.natAbs then throw .outOfRange
  let seconds := date.toDays * 86400 + (hour * 3600 + minute * 60 + second : Nat) - offset
  let some instant := Instant.ofParts? seconds nanos | throw .outOfRange
  return instant

end StructuredStore.Rfc3339
