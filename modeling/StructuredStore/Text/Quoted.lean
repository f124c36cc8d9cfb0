import StructuredStore.Text.Printable

/-!
# Quoted texts

Messages quote a text between double quotes so that its ends and every
invisible character in it can be seen.  A quote and a backslash are escaped
with a backslash, the common control characters have short forms, and any
other invisible character is written by its code point in hexadecimal.
-/

namespace StructuredStore.Quoted

/-- The characters that stand for `c` between the quotes. -/
def escape (c : Char) : List Char :=
  match c with
  | '\x00' => ['\\', '0']
  | '\t' => ['\\', 't']
  | '\n' => ['\\', 'n']
  | '\r' => ['\\', 'r']
  | '"' => ['\\', '"']
  | '\\' => ['\\', '\\']
  | c =>
      if Printable.isPrintable c then [c]
      else ['\\', 'u', '\x7b'] ++ Nat.toDigits 16 c.toNat ++ ['\x7d']

/-- The text in its quoted form. -/
def quote (text : String) : String :=
  String.ofList ('"' :: text.toList.flatMap escape ++ ['"'])

end StructuredStore.Quoted
