import StructuredStore.Binary64.Literal

/-!
# Scanning configuration texts

The lexical parts of a configuration text: blanks and comments, identifiers,
numbers, texts, and values of any shape, which are passed over when a setting
is not known.
-/

namespace StructuredStore.Config

/-- Reads something off the front of a text, or refuses the text. -/
abbrev Scan (α : Type) := StateT (List Char) Option α

namespace Scan

/-! ## Blanks -/

/-- Whether a character is blank. -/
def isBlank (c : Char) : Bool :=
  c == ' ' || c == '\t' || c == '\n' || c == '\r'

/-- Where a run of blanks and comments is: between comments, in one that ends
with the line, or in one within so many others. -/
inductive Gap where
  | between
  | line
  | block (outer : Nat)

/-- What follows the blanks and comments in front, if every comment ends. -/
def dropGap : Gap → List Char → Option (List Char)
  | .between, '/' :: '/' :: cs => dropGap .line cs
  | .between, '/' :: '*' :: cs => dropGap (.block 0) cs
  | .between, '/' :: _ => none
  | .between, c :: cs => if isBlank c then dropGap .between cs else some (c :: cs)
  | .between, [] => some []
  | .line, '\n' :: cs => dropGap .between cs
  | .line, _ :: cs => dropGap .line cs
  | .line, [] => some []
  | .block outer, '/' :: '*' :: cs => dropGap (.block (outer + 1)) cs
  | .block 0, '*' :: '/' :: cs => dropGap .between cs
  | .block (outer + 1), '*' :: '/' :: cs => dropGap (.block outer) cs
  | .block outer, _ :: cs => dropGap (.block outer) cs
  | .block _, [] => none

/-- Passes over blanks and comments. -/
def skipBlank : Scan Unit := fun cs =>
  (dropGap .between cs).map fun rest => ((), rest)

/-! ## Fixed texts -/

/-- The next character, which has to exist. -/
def peek : Scan Char
  | [] => none
  | c :: cs => some (c, c :: cs)

/-- Takes the next character, which has to exist. -/
def next : Scan Char
  | [] => none
  | c :: cs => some (c, cs)

/-- Takes a text if it comes next. -/
def accept (text : String) : Scan Bool := fun cs =>
  if text.toList.isPrefixOf cs then some (true, cs.drop text.length) else some (false, cs)

/-- Takes a text that has to come next. -/
def expect (text : String) : Scan Unit := do
  if ← accept text then return () else failure

/-- Takes a comma with the blanks around it, if there is one. -/
def comma : Scan Bool := do
  skipBlank
  if ← accept "," then
    skipBlank
    return true
  else return false

/-- Takes the characters of a class in front. -/
def takeClass (isMember : Char → Bool) : Scan (List Char) := fun cs =>
  some (cs.takeWhile isMember, cs.dropWhile isMember)

/-! ## Identifiers -/

/-- Whether a character may start an identifier. -/
def isIdentifierStart (c : Char) : Bool :=
  c.isAlpha || c == '_'

/-- Whether a character may go on an identifier. -/
def isIdentifierPart (c : Char) : Bool :=
  isIdentifierStart c || c.isDigit

/-- Takes an identifier.  What starts like a raw text is none. -/
def identifier : Scan String
  | 'r' :: '"' :: _ => none
  | 'r' :: '#' :: _ => none
  | 'r' :: [] => none
  | c :: cs =>
      if isIdentifierStart c then
        some (String.ofList (c :: cs.takeWhile isIdentifierPart),
          cs.dropWhile isIdentifierPart)
      else none
  | [] => none

/-- Takes a word if it comes next and no identifier goes on behind it. -/
def acceptWord (word : String) : Scan Bool := fun cs =>
  let rest := cs.drop word.length
  if word.toList.isPrefixOf cs && !(rest.head?.map isIdentifierPart).getD false then
    some (true, rest)
  else some (false, cs)

/-! ## Numbers -/

/-- The value of a hexadecimal digit. -/
def hexValue? (c : Char) : Option Nat :=
  if c.isDigit then some (c.toNat - 48)
  else if 'a' ≤ c ∧ c ≤ 'f' then some (c.toNat - 87)
  else if 'A' ≤ c ∧ c ≤ 'F' then some (c.toNat - 55)
  else none

/-- Whether a character may stand in a whole number. -/
def isIntegerPart (c : Char) : Bool :=
  (hexValue? c).isSome || c == '_'

/-- Whether a character may stand in a floating-point number. -/
def isFloatPart (c : Char) : Bool :=
  c.isDigit || c == 'e' || c == 'E' || c == '.' || c == '+' || c == '-'

/-- The number that digits of a base stand for, on top of `acc`, if it stays
within the limit.  Underscores between digits do not count. -/
def integerOf? (base limit : Nat) : Nat → List Char → Option Nat
  | acc, [] => some acc
  | acc, '_' :: cs => integerOf? base limit acc cs
  | acc, c :: cs =>
      match hexValue? c with
      | none => none
      | some digit =>
          let n := acc * base + digit
          if digit < base ∧ n ≤ limit then integerOf? base limit n cs else none

/-- The base that the first two characters announce. -/
def base : Scan Nat
  | '0' :: 'x' :: cs => some (16, cs)
  | '0' :: 'b' :: cs => some (2, cs)
  | '0' :: 'o' :: cs => some (8, cs)
  | cs => some (10, cs)

/-- Takes a whole number up to a limit. -/
def integer (limit : Nat) : Scan Nat := do
  let radix ← base
  let digits ← takeClass isIntegerPart
  if digits.isEmpty || digits.head? == some '_' then failure
  match integerOf? radix limit 0 digits with
  | some n => return n
  | none => failure

/-- Takes a 64-bit unsigned number. -/
def uint64 : Scan UInt64 :=
  UInt64.ofNat <$> integer 18446744073709551615

/-- Takes a truth value. -/
def bool : Scan Bool := do
  if ← accept "true" then return true
  expect "false"
  return false

/-- Passes over a floating-point number. -/
def skipFloat : Scan Unit := do
  let digits ← takeClass isFloatPart
  match Binary64.ofLiteral (String.ofList digits) with
  | .ok _ => return ()
  | .error _ => failure

/-- Passes over a sign, if there is one. -/
def skipSign : Scan Unit := do
  if ← accept "+" then return
  let _ ← accept "-"

/-- Passes over a whole number with an optional sign.  Its magnitude has to stay
below two to the power of 63, whatever the sign. -/
def skipSignedInteger : Scan Unit := do
  skipSign
  let _ ← integer 9223372036854775807

/-- Whether a number goes on further as a floating-point number than as a whole
one.  An exponent without a sign does not: its letter is a hexadecimal digit
too. -/
def looksLikeFloat (cs : List Char) : Bool :=
  let unsigned :=
    match cs with
    | '+' :: rest => rest
    | '-' :: rest => rest
    | _ => cs
  (unsigned.takeWhile isIntegerPart).length < (unsigned.takeWhile isFloatPart).length

/-- Passes over a number. -/
def skipNumber : Scan Unit := fun cs =>
  if looksLikeFloat cs then skipFloat cs else skipSignedInteger cs

/-! ## Texts -/

/-- Takes a hexadecimal digit. -/
def hexDigit : Scan Nat := do
  match hexValue? (← next) with
  | some digit => return digit
  | none => failure

/-- Takes up to `count` hexadecimal digits in front of a closing brace. -/
def hexDigits : Nat → Nat → Scan Nat
  | 0, n => return n
  | count + 1, n => do
      if (← peek) = '\x7d' then return n
      hexDigits count (n * 16 + (← hexDigit))

/-- The character with a code point, if there is one. -/
def charOfCode? (n : Nat) : Option Char :=
  if n.isValidChar then some (Char.ofNat n) else none

/-- Takes what follows a backslash. -/
def escape : Scan Char := do
  match ← next with
  | '\'' => return '\''
  | '"' => return '"'
  | '\\' => return '\\'
  | 'n' => return '\n'
  | 'r' => return '\r'
  | 't' => return '\t'
  | 'x' =>
      let high ← hexDigit
      let low ← hexDigit
      return Char.ofNat (high * 16 + low)
  | 'u' =>
      expect "\x7b"
      if (← peek) = '\x7d' then failure
      let code ← hexDigits 6 0
      expect "\x7d"
      match charOfCode? code with
      | some c => return c
      | none => failure
  | _ => failure

/-- Takes the rest of a text up to its closing quote; `fuel` bounds its
length. -/
def quotedRest : Nat → Scan (List Char)
  | 0 => failure
  | fuel + 1 => do
      match ← next with
      | '"' => return []
      | '\\' =>
          let c ← escape
          return c :: (← quotedRest fuel)
      | c => return c :: (← quotedRest fuel)

/-- Takes the rest of a raw text up to a quote and so many hashes. -/
def rawRest (hashes : List Char) : List Char → Option (List Char × List Char)
  | [] => none
  | c :: cs =>
      if c == '"' && hashes.isPrefixOf cs then some ([], cs.drop hashes.length)
      else (rawRest hashes cs).map fun (text, rest) => (c :: text, rest)

/-- Takes a text, quoted or raw. -/
def text : Scan String := do
  if ← accept "\"" then
    let fuel := (← get).length + 1
    return String.ofList (← quotedRest fuel)
  else
    expect "r"
    let hashes ← takeClass (· == '#')
    expect "\""
    let rest ← get
    match rawRest hashes rest with
    | some (inside, rest) =>
        set rest
        return String.ofList inside
    | none => failure

/-- Passes over a quoted character. -/
def skipChar : Scan Unit := do
  expect "'"
  match ← next with
  | '\'' => failure
  | '\\' =>
      let _ ← escape
  | _ => pure ()
  expect "'"

/-! ## Values of any shape -/

/-- Whether a parenthesis opens a list of values and not of named fields. -/
def opensTuple : Scan Bool := fun cs =>
  match identifier cs with
  | none => some (true, cs)
  | some (_, rest) =>
      match dropGap .between rest with
      | some (c :: _) => some (c != ':', cs)
      | _ => none

mutual

/-- Passes over a value; `implicit` says whether an optional value stands
without its wrapping, which then is not allowed. -/
def skipValue (implicit : Bool) : Nat → Scan Unit
  | 0 => failure
  | fuel + 1 => do
      if ← acceptWord "true" then return
      if ← acceptWord "false" then return
      if ← acceptWord "Some" then
        if implicit then failure
        skipBlank
        expect "("
        skipBlank
        skipValue implicit fuel
        skipBlank
        expect ")"
        return
      if ← acceptWord "None" then return
      if ← accept "()" then return
      match identifier (← get) with
      | some (_, rest) =>
          set rest
          skipBlank
          if ← accept "(" then skipGroup implicit fuel
      | none =>
          let c ← peek
          if c = '(' then
            expect "("
            skipGroup implicit fuel
          else if c = '[' then
            expect "["
            skipItems implicit ']' fuel
          else if c = '\x7b' then
            expect "\x7b"
            skipPairs implicit fuel
          else if c = '"' ∨ c = 'r' then
            let _ ← text
          else if c = '\'' then skipChar
          else if c = '.' then skipFloat
          else if c.isDigit ∨ c = '+' ∨ c = '-' then skipNumber
          else failure

/-- Passes over what follows an opening parenthesis. -/
def skipGroup (implicit : Bool) : Nat → Scan Unit
  | 0 => failure
  | fuel + 1 => do
      skipBlank
      if ← opensTuple then skipItems implicit ')' fuel else skipFields implicit fuel

/-- Passes over values up to a closing bracket. -/
def skipItems (implicit : Bool) (closing : Char) : Nat → Scan Unit
  | 0 => failure
  | fuel + 1 => do
      skipBlank
      if (← peek) = closing then
        let _ ← next
        return
      skipValue implicit fuel
      if ← comma then skipItems implicit closing fuel
      else if (← next) = closing then return
      else failure

/-- Passes over pairs of values up to a closing brace. -/
def skipPairs (implicit : Bool) : Nat → Scan Unit
  | 0 => failure
  | fuel + 1 => do
      skipBlank
      if ← accept "\x7d" then return
      skipValue implicit fuel
      skipBlank
      expect ":"
      skipBlank
      skipValue implicit fuel
      if ← comma then skipPairs implicit fuel else expect "\x7d"

/-- Passes over named fields up to a closing parenthesis. -/
def skipFields (implicit : Bool) : Nat → Scan Unit
  | 0 => failure
  | fuel + 1 => do
      skipBlank
      if ← accept ")" then return
      let _ ← identifier
      skipBlank
      expect ":"
      skipBlank
      skipValue implicit fuel
      if ← comma then skipFields implicit fuel else expect ")"

end

/-- Passes over a value of any shape.  Every two nested steps take at least one
character, which bounds their number. -/
def skipAny (implicit : Bool) : Scan Unit := do
  let fuel := 3 * (← get).length + 4
  skipValue implicit fuel

end Scan
end StructuredStore.Config
