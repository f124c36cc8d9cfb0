/-!
# Numerals

Decimal numerals of whole numbers: written without padding or in a fixed
width, and read against the bounds of the type they are meant for.

Main results:

- `length_fixedDigits`, `value_fixedDigits`: a fixed-width numeral has exactly
  its width and stands for the number modulo that power of ten.
- `value_digits`: an unpadded numeral stands for its number.
- `readMagnitude_eq_ok`: a run of digits within the limit is read as its number.
-/

namespace StructuredStore.Numeral

/-! ## Digits -/

/-- The character of a digit below ten. -/
def digitChar (d : Nat) : Char :=
  Char.ofNat (48 + d % 10)

/-- The digit that a character stands for. -/
def digitValue (c : Char) : Nat :=
  c.toNat - 48

/-- The number that a run of digits stands for. -/
def value (cs : List Char) : Nat :=
  cs.foldl (fun n c => n * 10 + digitValue c) 0

/-- The shortest numeral of `n`. -/
def digits (n : Nat) : List Char :=
  if n < 10 then [digitChar n]
  else digits (n / 10) ++ [digitChar n]
termination_by n

/-- The last `width` digits of `n`, padded on the left with zeros. -/
def fixedDigits : Nat → Nat → List Char
  | 0, _ => []
  | width + 1, n => fixedDigits width (n / 10) ++ [digitChar n]

/-- The shortest numeral of `n` as a text. -/
def ofNat (n : Nat) : String :=
  String.ofList (digits n)

/-- The shortest numeral of `i`, with a minus sign when it is negative. -/
def ofInt (i : Int) : String :=
  if i < 0 then "-" ++ ofNat i.natAbs else ofNat i.natAbs

private theorem digitChar_of_lt_ten :
    ∀ d, d < 10 → (digitChar d).isDigit = true ∧ digitValue (digitChar d) = d := by
  decide

/-- The character of a digit is a digit, also for numbers from ten on, which count
modulo ten. -/
theorem isDigit_digitChar (d : Nat) : (digitChar d).isDigit = true := by
  have h := (digitChar_of_lt_ten (d % 10) (Nat.mod_lt _ (by decide))).1
  simpa [digitChar] using h

/-- The character of a digit stands for the digit. -/
@[simp]
theorem digitValue_digitChar (d : Nat) : digitValue (digitChar d) = d % 10 := by
  have h := (digitChar_of_lt_ten (d % 10) (Nat.mod_lt _ (by decide))).2
  simpa [digitChar] using h

/-- A digit appended at the end takes the lowest place. -/
theorem value_append_singleton (cs : List Char) (c : Char) :
    value (cs ++ [c]) = value cs * 10 + digitValue c := by
  simp [value]

/-- A numeral of fixed width has that width. -/
@[simp]
theorem length_fixedDigits (width n : Nat) : (fixedDigits width n).length = width := by
  induction width generalizing n with
  | zero => rfl
  | succ width ih => simp [fixedDigits, ih]

/-- A numeral of fixed width stands for the number modulo the powers of ten that it
has room for. -/
theorem value_fixedDigits (width n : Nat) :
    value (fixedDigits width n) = n % Nat.pow 10 width := by
  induction width generalizing n with
  | zero => simp [fixedDigits, value, Nat.mod_one]
  | succ width ih =>
      have hpow : Nat.pow 10 (width + 1) = 10 * Nat.pow 10 width :=
        Nat.mul_comm _ _
      rw [fixedDigits, value_append_singleton, ih, digitValue_digitChar, hpow,
        Nat.mod_mul]
      omega

/-- An unpadded numeral stands for its number. -/
theorem value_digits (n : Nat) : value (digits n) = n := by
  fun_induction digits n with
  | case1 n h => simp [value, Nat.mod_eq_of_lt h]
  | case2 n h ih => rw [value_append_singleton, ih, digitValue_digitChar]; omega

/-- An unpadded numeral holds digits only. -/
theorem isDigit_of_mem_digits {n : Nat} {c : Char} (h : c ∈ digits n) :
    c.isDigit = true := by
  fun_induction digits n with
  | case1 n _ =>
      rw [List.mem_singleton.mp h]
      exact isDigit_digitChar n
  | case2 n _ ih =>
      rcases List.mem_append.mp h with h | h
      · exact ih h
      · rw [List.mem_singleton.mp h]
        exact isDigit_digitChar n

/-- Every number has a digit. -/
theorem digits_ne_nil (n : Nat) : digits n ≠ [] := by
  fun_cases digits n <;> simp

/-! ## Reading -/

/-- Why a text is not a numeral of the wanted type. -/
inductive Fault where
  | empty
  | invalidDigit
  | tooLarge
  | tooSmall
deriving DecidableEq, Repr

/-- The wording of a refused numeral. -/
def Fault.message : Fault → String
  | .empty => "cannot parse integer from empty string"
  | .invalidDigit => "invalid digit found in string"
  | .tooLarge => "number too large to fit in target type"
  | .tooSmall => "number too small to fit in target type"

/-- Reads digits from the left, on top of the number `acc` read so far.  The
first character that is no digit, or that takes the number beyond `limit`,
decides the fault. -/
def readMagnitude (limit : Nat) (beyond : Fault) : Nat → List Char → Except Fault Nat
  | acc, [] => .ok acc
  | acc, c :: rest =>
      if c.isDigit then
        if acc * 10 + digitValue c ≤ limit then
          readMagnitude limit beyond (acc * 10 + digitValue c) rest
        else .error beyond
      else .error .invalidDigit

/-- Reads a run of at least one digit. -/
def readDigits (limit : Nat) (beyond : Fault) : List Char → Except Fault Nat
  | [] => .error .invalidDigit
  | cs => readMagnitude limit beyond 0 cs

/-- Reads a numeral of a signed type with bounds `-low` and `high`; one sign of
either kind may stand in front. -/
def readSigned (low high : Nat) : List Char → Except Fault Int
  | [] => .error .empty
  | '-' :: cs => (readDigits low .tooSmall cs).map fun n => -(n : Int)
  | '+' :: cs => (readDigits high .tooLarge cs).map fun n => (n : Int)
  | cs => (readDigits high .tooLarge cs).map fun n => (n : Int)

/-- Reads a numeral of an unsigned type with the bound `high`; a plus sign may
stand in front, a minus sign is no digit. -/
def readUnsigned (high : Nat) : List Char → Except Fault Nat
  | [] => .error .empty
  | '+' :: cs => readDigits high .tooLarge cs
  | cs => readDigits high .tooLarge cs

/-- Reads a 64-bit signed number. -/
def readInt64 (text : String) : Except Fault Int64 :=
  (readSigned 9223372036854775808 9223372036854775807 text.toList).map Int64.ofInt

/-- Reads a 64-bit unsigned number. -/
def readUInt64 (text : String) : Except Fault UInt64 :=
  (readUnsigned 18446744073709551615 text.toList).map UInt64.ofNat

/-- Reads an 8-bit unsigned number. -/
def readUInt8 (text : String) : Except Fault UInt8 :=
  (readUnsigned 255 text.toList).map UInt8.ofNat

/-- What reading a run of digits on top of `acc` comes to. -/
theorem readMagnitude_eq_ok {limit : Nat} {beyond : Fault} {cs : List Char} :
    ∀ {acc : Nat}, (∀ c ∈ cs, c.isDigit = true) →
      cs.foldl (fun n c => n * 10 + digitValue c) acc ≤ limit →
      readMagnitude limit beyond acc cs =
        .ok (cs.foldl (fun n c => n * 10 + digitValue c) acc) := by
  induction cs with
  | nil => intros; rfl
  | cons c rest ih =>
      intro acc hdigits hlimit
      have hgrow : ∀ (l : List Char) (a : Nat),
          a ≤ l.foldl (fun n c => n * 10 + digitValue c) a := by
        intro l
        induction l with
        | nil => simp
        | cons d l ih =>
            intro a
            exact Nat.le_trans (by omega) (ih (a * 10 + digitValue d))
      have hstep : acc * 10 + digitValue c ≤ limit :=
        Nat.le_trans (hgrow rest _) hlimit
      rw [readMagnitude, if_pos (hdigits c (by simp)), if_pos hstep]
      exact ih (fun d hd => hdigits d (by simp [hd])) hlimit

end StructuredStore.Numeral
