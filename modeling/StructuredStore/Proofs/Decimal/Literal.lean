import StructuredStore.Decimal.Text
import StructuredStore.Proofs.Decimal.Arithmetic
import StructuredStore.Proofs.Text.Numerals

/-!
# Decimals and their texts

The texts that are read as decimals are literals: an optional sign, digits, and
a point with digits behind it, which may be missing.  A literal denotes a number
on its own, digit by digit.  Reading one gives the decimal of that number with as
many places as there are digits behind the point.  A decimal is shown as a literal
of its number, unless it has more places than digits can be padded to.

Main results:

- `Literal.value_mul_pow`: the digits of a literal without the point.
- `ofText_of_literal`, `ofText_eq_notDecimal`, `exists_literal`: the literals
  whose digits fit are read, and no other text is.
- `toList_toText`: a decimal is shown as the literal of its number.
- `text_exact`: reading what is shown, and what is read at all.
-/

namespace StructuredStore.Decimal

open Numeral (Sign)

/-! ## Literals -/

/-- A decimal in writing: an optional sign, digits, and a point with more digits,
which may be missing.  There is at least one digit. -/
structure Literal where
  sign : Option Sign
  whole : List Char
  fraction : Option (List Char)
  whole_digits : ∀ c ∈ whole, c.isDigit = true
  fraction_digits : ∀ c ∈ fraction.getD [], c.isDigit = true
  some_digit : whole ++ fraction.getD [] ≠ []

namespace Literal

/-- The point and the digits behind it, if there is a point. -/
def pointed : Option (List Char) → List Char
  | none => []
  | some ds => '.' :: ds

/-- The literal as it is written. -/
def text (w : Literal) : List Char :=
  Sign.written w.sign ++ w.whole ++ pointed w.fraction

/-- All digits of the literal. -/
def digits (w : Literal) : List Char :=
  w.whole ++ w.fraction.getD []

/-- How many digits stand behind the point. -/
def scale (w : Literal) : Nat :=
  (w.fraction.getD []).length

/-- The number of all digits, under the sign. -/
def signedDigits (w : Literal) : ℤ :=
  Sign.applied w.sign (Numeral.value w.digits : ℤ)

/-- The number of the digits behind a point. -/
def fractionValue : List Char → ℚ
  | [] => 0
  | c :: cs => (Numeral.digitValue c + fractionValue cs) / 10

/-- The number that a literal denotes. -/
def value (w : Literal) : ℚ :=
  Sign.applied w.sign (Numeral.value w.whole + fractionValue (w.fraction.getD []))

/-- Whether the digits fit 64 bits, and their number behind the point is a
scale. -/
def Readable (w : Literal) : Prop :=
  w.scale ≤ 2147483647 ∧ FitsInt64 w.signedDigits

theorem digits_digits (w : Literal) : ∀ c ∈ w.digits, c.isDigit = true := fun c hc =>
  (List.mem_append.mp hc).elim (w.whole_digits c) (w.fraction_digits c)

/-- The digits after the point, as a fraction, are their value over a power of ten. -/
theorem fractionValue_mul_pow (cs : List Char) :
    fractionValue cs * 10 ^ cs.length = Numeral.value cs := by
  induction cs with
  | nil => simp [fractionValue, Numeral.value]
  | cons c cs ih =>
      rw [Numeral.value_cons, fractionValue, List.length_cons, pow_succ]
      push_cast
      rw [← ih]
      ring

/-- Without the point, a literal is the number of its digits. -/
theorem value_mul_pow (w : Literal) : w.value * 10 ^ w.scale = w.signedDigits := by
  have hdigits : (Numeral.value w.whole + fractionValue (w.fraction.getD [])) * 10 ^ w.scale =
      Numeral.value w.digits := by
    rw [digits, Numeral.value_append, add_mul, scale, fractionValue_mul_pow]
    push_cast
    rfl
  rw [value, signedDigits]
  match w.sign with
  | none => exact_mod_cast hdigits
  | some .plus => exact_mod_cast hdigits
  | some .minus =>
      rw [Sign.applied, Sign.applied, neg_mul, hdigits, Int.cast_neg, Int.cast_natCast]

end Literal

/-- A text denotes the number of the literal that it is. -/
def Denotes (text : String) (q : ℚ) : Prop :=
  ∃ w : Literal, text.toList = w.text ∧ w.value = q

/-- A decimal stands for the number of a literal with the same digits and
places. -/
theorem value_eq_of_literal {d : Decimal} {w : Literal} (hscale : d.scale.toInt = w.scale)
    (hcoefficient : d.coefficient.toInt = w.signedDigits) : d.value = w.value := by
  apply eq_of_cast_coefficientAt
  rw [hcoefficient, hscale, zpow_natCast, Literal.value_mul_pow]

/-! ## Reading -/

/-- Every text is what stands before its first point, and the point with what
stands behind it. -/
theorem exists_parts (cs : List Char) :
    ∃ (front : List Char) (back : Option (List Char)),
      '.' ∉ front ∧ cs = front ++ Literal.pointed back := by
  induction cs with
  | nil => exact ⟨[], none, List.not_mem_nil, rfl⟩
  | cons c cs ih =>
      obtain ⟨front, back, hfront, rfl⟩ := ih
      by_cases hc : c = '.'
      · exact ⟨[], some (front ++ Literal.pointed back), List.not_mem_nil, by rw [hc]; rfl⟩
      · exact ⟨c :: front, back, fun h =>
          (List.mem_cons.mp h).elim (fun heq => hc heq.symm) hfront, rfl⟩

section Parts

variable {text : String} {front : List Char} {back : Option (List Char)} {d : Decimal}

/-- What stands before the first point is the front part. -/
theorem takeWhile_parts (hfront : '.' ∉ front) (back : Option (List Char)) :
    (front ++ Literal.pointed back).takeWhile (· ≠ '.') = front := by
  have hall : ∀ c ∈ front, decide (c ≠ '.') = true := fun c hc =>
    decide_eq_true fun heq => hfront (heq ▸ hc)
  rw [List.takeWhile_append_of_pos hall]
  cases back <;> simp [Literal.pointed]

/-- What stands behind the first point is the back part. -/
theorem dropWhile_parts (hfront : '.' ∉ front) (back : Option (List Char)) :
    ((front ++ Literal.pointed back).dropWhile (· ≠ '.')).drop 1 = back.getD [] := by
  have hall : ∀ c ∈ front, decide (c ≠ '.') = true := fun c hc =>
    decide_eq_true fun heq => hfront (heq ▸ hc)
  rw [List.dropWhile_append_of_pos hall]
  cases back <;> simp [Literal.pointed]

/-- A text is read by what stands before and behind its first point. -/
theorem ofText_of_parts (htext : text.toList = front ++ Literal.pointed back)
    (hfront : '.' ∉ front) :
    ofText text =
      if front.isEmpty && (back.getD []).isEmpty then .error (.corrupt (.notDecimal text))
      else if !(back.getD []).all Char.isDigit then .error (.corrupt (.notDecimal text))
      else
        match Numeral.readInt64 (String.ofList (front ++ back.getD [])) with
        | .error _ => .error (.corrupt (.notDecimal text))
        | .ok coefficient =>
            match narrowScale (back.getD []).length with
            | .ok scale => .ok ⟨coefficient, scale⟩
            | .error fault => .error fault := by
  have hwhole := takeWhile_parts hfront back
  have hfraction := dropWhile_parts hfront back
  rw [← htext] at hwhole hfraction
  rw [← hwhole, ← hfraction]
  rfl

/-- A count of digits narrows to a scale exactly when it fits 32 signed bits. -/
theorem narrowScale_eq_ok_iff {n : Nat} {scale : Int32} :
    narrowScale n = .ok scale ↔ n ≤ 2147483647 ∧ scale.toInt = n := by
  have hlow : -2147483648 ≤ scale.toInt := scale.le_toInt
  have hhigh : scale.toInt ≤ 2147483647 := scale.toInt_le
  unfold narrowScale
  constructor
  · intro h
    split at h
    · cases h
      exact ⟨by omega, Int32.toInt_ofInt_of_le (by omega) (by omega)⟩
    · cases h
  · rintro ⟨hle, hscale⟩
    rw [if_pos ⟨by omega, by omega⟩, ← hscale, Int32.ofInt_toInt]

/-- The digits before and behind the point are read as one number. -/
theorem ofText_eq_ok_iff_of_parts (htext : text.toList = front ++ Literal.pointed back)
    (hfront : '.' ∉ front) :
    ofText text = .ok d ↔
      (∀ c ∈ back.getD [], c.isDigit = true) ∧
        Numeral.readInt64 (String.ofList (front ++ back.getD [])) = .ok d.coefficient ∧
        (back.getD []).length ≤ 2147483647 ∧ d.scale.toInt = (back.getD []).length := by
  rw [ofText_of_parts htext hfront, ← narrowScale_eq_ok_iff, ← List.all_eq_true]
  generalize back.getD [] = fraction
  constructor
  · intro h
    split at h
    · cases h
    · split at h
      · cases h
      · rename_i hdigits
        split at h
        · cases h
        · rename_i hread
          split at h
          · rename_i hscale
            cases h
            exact ⟨by simpa using hdigits, hread, hscale⟩
          · cases h
  · rintro ⟨hdigits, hread, hscale⟩
    have hsome : ¬ (front.isEmpty && fraction.isEmpty) = true := by
      intro hempty
      rw [Bool.and_eq_true, List.isEmpty_iff, List.isEmpty_iff] at hempty
      rw [hempty.1, hempty.2] at hread
      cases hread
    rw [if_neg hsome, if_neg (by simp [hdigits]), hread, hscale]

end Parts

/-- A run of digits does not start with a sign. -/
theorem ne_written {ds : List Char} (hds : ∀ c ∈ ds, c.isDigit = true) (sign : Sign)
    (cs : List Char) : ds ≠ Sign.written (some sign) ++ cs := by
  rintro rfl
  cases sign with
  | plus => exact absurd (hds '+' List.mem_cons_self) (by decide)
  | minus => exact absurd (hds '-' List.mem_cons_self) (by decide)

/-- A sign and the digits behind it are told apart. -/
theorem written_append_inj {sign sign' : Option Sign} {ds ds' : List Char}
    (hds : ∀ c ∈ ds, c.isDigit = true) (hds' : ∀ c ∈ ds', c.isDigit = true)
    (h : Sign.written sign ++ ds = Sign.written sign' ++ ds') : sign = sign' ∧ ds = ds' := by
  match sign, sign' with
  | none, none => exact ⟨rfl, h⟩
  | none, some sign' => exact absurd h (ne_written hds sign' ds')
  | some sign, none => exact absurd h.symm (ne_written hds' sign ds)
  | some .plus, some .plus => exact ⟨rfl, (List.cons.inj h).2⟩
  | some .minus, some .minus => exact ⟨rfl, (List.cons.inj h).2⟩
  | some .plus, some .minus => exact absurd (List.cons.inj h).1 (by decide)
  | some .minus, some .plus => exact absurd (List.cons.inj h).1 (by decide)

/-- A sign stands before the point. -/
theorem exists_whole {sign : Option Sign} {front fraction ds : List Char}
    (hfraction : ∀ c ∈ fraction, c.isDigit = true)
    (h : front ++ fraction = Sign.written sign ++ ds) :
    ∃ whole, front = Sign.written sign ++ whole ∧ ds = whole ++ fraction := by
  match sign, front with
  | none, front => exact ⟨front, rfl, h.symm⟩
  | some sign, [] => exact absurd h (ne_written hfraction sign ds)
  | some .plus, c :: whole =>
      obtain ⟨rfl, hrest⟩ := List.cons.inj h
      exact ⟨whole, rfl, hrest.symm⟩
  | some .minus, c :: whole =>
      obtain ⟨rfl, hrest⟩ := List.cons.inj h
      exact ⟨whole, rfl, hrest.symm⟩

namespace Literal

variable {text : String} {w : Literal}

/-- No point stands before the point. -/
theorem point_notMem (w : Literal) : '.' ∉ Sign.written w.sign ++ w.whole := by
  intro h
  rcases List.mem_append.mp h with hsign | hwhole
  · revert hsign
    rcases w.sign with _ | _ | _ <;> decide
  · exact absurd (w.whole_digits '.' hwhole) (by decide)

/-- The digits of a literal under its sign are a numeral of 64 bits if they
fit. -/
theorem readInt64_eq_ok_iff {c : Int64} :
    Numeral.readInt64 (String.ofList (Sign.written w.sign ++ w.digits)) = .ok c ↔
      c.toInt = w.signedDigits := by
  rw [Numeral.readInt64_eq_ok_iff, String.toList_ofList]
  constructor
  · rintro ⟨sign, ds, htext, -, hds, hvalue⟩
    obtain ⟨rfl, rfl⟩ := written_append_inj w.digits_digits hds htext
    exact hvalue
  · intro hvalue
    exact ⟨w.sign, w.digits, rfl, w.some_digit, w.digits_digits, hvalue⟩

/-- A literal whose digits do not fit is no numeral. -/
theorem exists_readInt64_eq_error (h : ¬ FitsInt64 w.signedDigits) :
    ∃ fault, Numeral.readInt64 (String.ofList (Sign.written w.sign ++ w.digits)) =
      .error fault := by
  cases hread : Numeral.readInt64 (String.ofList (Sign.written w.sign ++ w.digits)) with
  | error fault => exact ⟨fault, rfl⟩
  | ok c =>
      have hvalue := readInt64_eq_ok_iff.mp hread
      exact absurd (hvalue ▸ ⟨c.le_toInt, c.toInt_le⟩) h

end Literal

section Reading

variable {text : String} {w : Literal} {d : Decimal}

/-- A literal is read as its digits, with as many places as stand behind the
point. -/
theorem ofText_of_literal (htext : text.toList = w.text) :
    ofText text = .ok d ↔
      w.scale ≤ 2147483647 ∧ d.scale.toInt = w.scale ∧
        d.coefficient.toInt = w.signedDigits := by
  rw [ofText_eq_ok_iff_of_parts htext w.point_notMem, List.append_assoc]
  constructor
  · rintro ⟨-, hread, hle, hscale⟩
    exact ⟨hle, hscale, Literal.readInt64_eq_ok_iff.mp hread⟩
  · rintro ⟨hle, hscale, hvalue⟩
    exact ⟨w.fraction_digits, Literal.readInt64_eq_ok_iff.mpr hvalue, hle, hscale⟩

/-- A literal is read if its digits fit. -/
theorem exists_ofText_iff (htext : text.toList = w.text) :
    (∃ d, ofText text = .ok d) ↔ w.Readable := by
  constructor
  · rintro ⟨d, h⟩
    obtain ⟨hle, -, hvalue⟩ := (ofText_of_literal htext).mp h
    exact ⟨hle, hvalue ▸ ⟨d.coefficient.le_toInt, d.coefficient.toInt_le⟩⟩
  · rintro ⟨hle, hlow, hhigh⟩
    refine ⟨⟨Int64.ofInt w.signedDigits, Int32.ofInt w.scale⟩,
      (ofText_of_literal htext).mpr ⟨hle, ?_, ?_⟩⟩
    · exact Int32.toInt_ofInt_of_le (by omega) (by omega)
    · exact Int64.toInt_ofInt_of_le hlow (by omega)

/-- A literal whose digits do not fit is refused as no decimal. -/
theorem ofText_eq_notDecimal (htext : text.toList = w.text) (h : ¬ FitsInt64 w.signedDigits) :
    ofText text = .error (.corrupt (.notDecimal text)) := by
  obtain ⟨fault, hread⟩ := Literal.exists_readInt64_eq_error h
  rw [Literal.digits, ← List.append_assoc] at hread
  rw [ofText_of_parts htext w.point_notMem, hread]
  split
  · rfl
  · split <;> rfl

/-- Only literals are read. -/
theorem exists_literal (h : ofText text = .ok d) : ∃ w : Literal, text.toList = w.text := by
  obtain ⟨front, back, hfront, htext⟩ := exists_parts text.toList
  obtain ⟨hfraction, hread, -⟩ := (ofText_eq_ok_iff_of_parts htext hfront).mp h
  obtain ⟨sign, ds, hnumeral, hne, hds, -⟩ := Numeral.readInt64_eq_ok_iff.mp hread
  rw [String.toList_ofList] at hnumeral
  obtain ⟨whole, rfl, rfl⟩ := exists_whole hfraction hnumeral
  exact ⟨⟨sign, whole, back, fun c hc => hds c (List.mem_append_left _ hc), hfraction, hne⟩, htext⟩

end Reading

/-! ## Showing -/

section Showing

variable {d : Decimal}

/-- The sign of a shown decimal: only a minus sign is shown. -/
def shownSign (d : Decimal) : Option Sign :=
  if d.coefficient.toInt < 0 then some .minus else none

/-- The digits of a decimal, padded so that at least one stands before the
point. -/
def shownDigits (d : Decimal) : List Char :=
  let written := Numeral.digits d.coefficient.toInt.natAbs
  List.replicate (d.scale.toInt.toNat + 1 - written.length) '0' ++ written ++
    List.replicate (-d.scale.toInt).toNat '0'

theorem isDigit_of_mem_shownDigits {c : Char} (h : c ∈ d.shownDigits) : c.isDigit = true := by
  have hzeros : ∀ n, c ∈ List.replicate n '0' → c.isDigit = true := fun n hc => by
    rw [List.eq_of_mem_replicate hc]
    decide
  rcases List.mem_append.mp h with h | h
  · exact (List.mem_append.mp h).elim (hzeros _) Numeral.isDigit_of_mem_digits
  · exact hzeros _ h

/-- Enough digits are shown for the point to stand among them. -/
theorem lt_length_shownDigits (d : Decimal) :
    d.scale.toInt.toNat < d.shownDigits.length := by
  simp only [shownDigits, List.length_append, List.length_replicate]
  omega

/-- The digits shown spell the coefficient, with the zeros a negative scale appends.
-/
theorem value_shownDigits (d : Decimal) :
    Numeral.value d.shownDigits = d.coefficient.toInt.natAbs * 10 ^ (-d.scale.toInt).toNat := by
  rw [shownDigits, Numeral.value_append_zeros, Numeral.value_zeros_append, Numeral.value_digits]

/-- How many digits of a decimal stand before the point. -/
def shownBefore (d : Decimal) : Nat :=
  d.shownDigits.length - d.scale.toInt.toNat

/-- The literal that a decimal is shown as: the last digits stand behind a point
if the scale is positive. -/
def shown (d : Decimal) : Literal where
  sign := d.shownSign
  whole := d.shownDigits.take d.shownBefore
  fraction := if d.scale.toInt ≤ 0 then none else some (d.shownDigits.drop d.shownBefore)
  whole_digits _ hc := isDigit_of_mem_shownDigits (List.mem_of_mem_take hc)
  fraction_digits := by
    intro c hc
    split at hc
    · cases hc
    · exact isDigit_of_mem_shownDigits (List.mem_of_mem_drop hc)
  some_digit := by
    have hlt := lt_length_shownDigits d
    intro hnil
    have htake := congrArg List.length (List.append_eq_nil_iff.mp hnil).1
    rw [List.length_take, List.length_nil, shownBefore] at htake
    omega

/-- The digits behind the point are the last ones, as many as the scale says. -/
theorem fractionDigits_shown (d : Decimal) :
    d.shown.fraction.getD [] = d.shownDigits.drop d.shownBefore := by
  rw [shown]
  split
  · have hbefore : d.shownDigits.length ≤ d.shownBefore := by
      rw [shownBefore]
      omega
    exact (List.drop_eq_nil_of_le hbefore).symm
  · rfl

/-- The literal shown has the digits shown. -/
theorem digits_shown (d : Decimal) : d.shown.digits = d.shownDigits := by
  rw [Literal.digits, fractionDigits_shown]
  exact List.take_append_drop _ _

/-- The literal shown has the decimal's scale, or zero in place of a negative one. -/
theorem scale_shown (d : Decimal) : d.shown.scale = d.scale.toInt.toNat := by
  have hlt := lt_length_shownDigits d
  rw [Literal.scale, fractionDigits_shown, List.length_drop, shownBefore]
  omega

/-- The literal shown has the coefficient's sign and digits. -/
theorem signedDigits_shown (d : Decimal) :
    d.shown.signedDigits = d.coefficient.toInt * 10 ^ (-d.scale.toInt).toNat := by
  rw [Literal.signedDigits, digits_shown, value_shownDigits]
  push_cast
  unfold shown shownSign
  simp only
  split
  · rename_i hneg
    rw [Sign.applied, abs_of_neg hneg]
    ring
  · rename_i hneg
    rw [Sign.applied, abs_of_nonneg (by omega)]
    simp

/-- A decimal is shown as the literal of its number. -/
theorem value_shown (d : Decimal) : d.shown.value = d.value := by
  have hten : (10 : ℚ) ^ d.scale.toInt.toNat ≠ 0 := pow_ne_zero _ (by norm_num)
  have hplaces : -d.scale.toInt + d.scale.toInt.toNat = ((-d.scale.toInt).toNat : ℤ) := by omega
  apply mul_right_cancel₀ hten
  calc d.shown.value * (10 : ℚ) ^ d.scale.toInt.toNat
      = d.coefficient.toInt * (10 : ℚ) ^ (-d.scale.toInt).toNat := by
        rw [← scale_shown, Literal.value_mul_pow, signedDigits_shown]
        push_cast
        rfl
    _ = d.value * (10 : ℚ) ^ d.scale.toInt.toNat := by
        rw [value, mul_assoc, ← zpow_natCast, ← zpow_natCast, ← zpow_add₀ (by norm_num), hplaces]

/-- The sign is written for negative coefficients only. -/
theorem written_shownSign (d : Decimal) :
    Sign.written d.shownSign = if d.coefficient.toInt < 0 then ['-'] else [] := by
  unfold shownSign
  split <;> rfl

theorem toList_ofInt (i : Int) :
    (Numeral.ofInt i).toList = (if i < 0 then ['-'] else []) ++ Numeral.digits i.natAbs := by
  unfold Numeral.ofInt Numeral.ofNat
  split
  · rw [String.toList_append, String.toList_ofList, String.toList_ofList]
  · rw [String.toList_ofList]
    rfl

/-- Without a fraction, the digits of the coefficient are followed by zeros. -/
theorem shownDigits_of_le {d : Decimal} (h : d.scale.toInt ≤ 0) :
    d.shownDigits = Numeral.digits d.coefficient.toInt.natAbs ++
      List.replicate (-d.scale.toInt).toNat '0' := by
  have hpos := List.length_pos_of_ne_nil (Numeral.digits_ne_nil d.coefficient.toInt.natAbs)
  have hpadding : d.scale.toInt.toNat + 1 -
      (Numeral.digits d.coefficient.toInt.natAbs).length = 0 := by omega
  rw [shownDigits, hpadding, List.replicate_zero, List.nil_append]

/-- With a fraction, zeros stand before the digits of the coefficient. -/
theorem shownDigits_of_pos {d : Decimal} (h : 0 < d.scale.toInt) :
    d.shownDigits = List.replicate
      (d.scale.toInt.toNat + 1 - (Numeral.digits d.coefficient.toInt.natAbs).length) '0' ++
      Numeral.digits d.coefficient.toInt.natAbs := by
  have hzeros : (-d.scale.toInt).toNat = 0 := by omega
  rw [shownDigits, hzeros, List.replicate_zero, List.append_nil]

/-- A decimal is shown as the literal with its sign and its padded digits. -/
theorem toList_toText (d : Decimal) : d.toText.toList = d.shown.text := by
  have htext : d.shown.text = Sign.written d.shownSign ++ d.shownDigits.take d.shownBefore ++
      Literal.pointed (if d.scale.toInt ≤ 0 then none
        else some (d.shownDigits.drop d.shownBefore)) := rfl
  rw [htext, toText, written_shownSign]
  split
  · rename_i hscale
    have hbefore : d.shownDigits.length ≤ d.shownBefore := by
      rw [shownBefore]
      omega
    rw [String.toList_ofList, toList_ofInt, List.take_of_length_le hbefore,
      shownDigits_of_le hscale, Literal.pointed, List.append_nil, List.append_assoc]
  · rename_i hscale
    have hsign : d.coefficient < 0 ↔ d.coefficient.toInt < 0 := Int64.lt_iff_toInt_lt
    rw [String.toList_ofList, shownBefore, shownDigits_of_pos (not_le.mp hscale)]
    simp only [hsign, Literal.pointed]

end Showing

/-! ## Reading what is shown -/

section Shown

variable {d : Decimal}

/-- The digits of a decimal without zeros behind them fit. -/
theorem signedDigits_shown_of_nonneg (h : 0 ≤ d.scale.toInt) :
    d.shown.signedDigits = d.coefficient.toInt := by
  have hzeros : (-d.scale.toInt).toNat = 0 := by omega
  rw [signedDigits_shown, hzeros, pow_zero, mul_one]

/-- A decimal with places behind the point is read as it was. -/
theorem ofText_toText (h : 0 ≤ d.scale.toInt) : ofText d.toText = .ok d := by
  have hhigh : d.scale.toInt ≤ 2147483647 := d.scale.toInt_le
  refine (ofText_of_literal (toList_toText d)).mpr ⟨?_, ?_, ?_⟩
  · rw [scale_shown]
    omega
  · rw [scale_shown]
    omega
  · exact (signedDigits_shown_of_nonneg h).symm

/-- A decimal with zeros in place of a fraction is read as the same number
without places. -/
theorem value_of_ofText_toText {e : Decimal} (h : d.scale.toInt < 0)
    (hread : ofText d.toText = .ok e) : e.scale = 0 ∧ e.value = d.value := by
  obtain ⟨-, hscale, hvalue⟩ := (ofText_of_literal (toList_toText d)).mp hread
  refine ⟨Int32.toInt_inj.mp ?_, (value_eq_of_literal hscale hvalue).trans (value_shown d)⟩
  rw [hscale, scale_shown, Int32.toInt_zero]
  omega

end Shown

/-- Decimals in writing.  A decimal is shown if it has at most 65535 places, and
what is shown denotes its number.  One with places behind the point is read back
as it was; one with zeros in their place is read back as the same number without
places, or refused because its digits do not fit.  Exactly the literals whose
digits fit are read, as their numbers with as many places as stand behind the
point. -/
theorem text_exact (d : Decimal) (text : String) :
    ((∃ shown, d.toText? = some shown) ↔ d.scale.toInt ≤ maxWidth) ∧
    (∀ shown, d.toText? = some shown →
      Denotes shown d.value ∧
      (0 ≤ d.scale.toInt → ofText shown = .ok d) ∧
      (d.scale.toInt < 0 →
        (∃ e, ofText shown = .ok e ∧ e.scale = 0 ∧ e.value = d.value) ∨
          ¬ FitsInt64 (d.coefficient.toInt * 10 ^ (-d.scale.toInt).toNat) ∧
            ofText shown = .error (.corrupt (.notDecimal shown)))) ∧
    ((∃ e, ofText text = .ok e) ↔ ∃ w : Literal, text.toList = w.text ∧ w.Readable) ∧
    ∀ (w : Literal) (e : Decimal), text.toList = w.text → ofText text = .ok e →
      e.scale.toInt = w.scale ∧ e.value = w.value := by
  refine ⟨?_, ?_, ?_, ?_⟩
  · unfold toText?
    split <;> simp_all
  · intro shown h
    obtain rfl : shown = d.toText := by
      unfold toText? at h
      split at h <;> simp_all
    refine ⟨⟨d.shown, toList_toText d, value_shown d⟩, ofText_toText, fun hscale => ?_⟩
    by_cases hfits : FitsInt64 d.shown.signedDigits
    · left
      have hplaces : d.shown.scale ≤ 2147483647 := by
        rw [scale_shown]
        omega
      obtain ⟨e, hread⟩ := (exists_ofText_iff (toList_toText d)).mpr ⟨hplaces, hfits⟩
      exact ⟨e, hread, value_of_ofText_toText hscale hread⟩
    · right
      exact ⟨signedDigits_shown d ▸ hfits, ofText_eq_notDecimal (toList_toText d) hfits⟩
  · constructor
    · rintro ⟨e, h⟩
      obtain ⟨w, htext⟩ := exists_literal h
      exact ⟨w, htext, (exists_ofText_iff htext).mp ⟨e, h⟩⟩
    · rintro ⟨w, htext, hreadable⟩
      exact (exists_ofText_iff htext).mpr hreadable
  · intro w e htext h
    obtain ⟨-, hscale, hvalue⟩ := (ofText_of_literal htext).mp h
    exact ⟨hscale, value_eq_of_literal hscale hvalue⟩

/-- Minus five thousandths are read back as they were, and twelve hundreds as
twelve hundred. -/
theorem text_exact_small :
    (toText? ⟨-5, 3⟩ = some "-0.005" ∧ ofText "-0.005" = .ok ⟨-5, 3⟩) ∧
      toText? ⟨12, -2⟩ = some "1200" ∧ Denotes "1200" (value ⟨12, -2⟩) := by
  have hsmall : toText? ⟨-5, 3⟩ = some "-0.005" := by decide +kernel
  have hlarge : toText? ⟨12, -2⟩ = some "1200" := by decide +kernel
  exact ⟨⟨hsmall, ((text_exact ⟨-5, 3⟩ "-0.005").2.1 _ hsmall).2.1 (by decide)⟩, hlarge,
    ((text_exact ⟨12, -2⟩ "1200").2.1 _ hlarge).1⟩

/-- A decimal with one place more than digits can be padded to is not shown, so
nothing reads it back. -/
theorem text_lost :
    ¬ ∀ d : Decimal, 0 ≤ d.scale.toInt → ∃ text, d.toText? = some text ∧ ofText text = .ok d := by
  intro hall
  obtain ⟨text, hshown, -⟩ := hall ⟨1, 65536⟩ (by decide)
  have hnone : toText? ⟨1, 65536⟩ = none := by decide
  rw [hnone] at hshown
  cases hshown

end StructuredStore.Decimal
