import Mathlib.Data.Rat.Floor
import Mathlib.Tactic.FieldSimp
import Mathlib.Tactic.Linarith
import Mathlib.Tactic.Ring
import StructuredStore.Decimal.Basic

/-!
# The numbers that decimals stand for

A decimal stands for a rational number.  At a given scale a rational number has
a coefficient, which is found by shifting the point and dropping what is left
behind it.  Coefficients of quotients of integers are truncated quotients.

Main results:

- `truncate_div`: dropping the fraction of a quotient is division toward zero.
- `coefficientAt_value_of_le`, `coefficientAt_value_of_lt`: the coefficient of
  a decimal at a larger and at a smaller scale.
- `ExactAt`: decimals, their sums, differences and products have no fraction at
  the scales at which they are answered.
- `coefficientAt_quotient_of_le`, `coefficientAt_quotient_of_lt`: the coefficient
  of the quotient of two decimals.
-/

namespace StructuredStore

/-! ## Dropping fractions -/

/-- A rational number without its fraction, which is dropped toward zero. -/
def truncate (q : ℚ) : ℤ :=
  if 0 ≤ q then ⌊q⌋ else ⌈q⌉

@[simp]
theorem truncate_intCast (i : ℤ) : truncate i = i := by
  simp [truncate]

theorem truncate_neg (q : ℚ) : truncate (-q) = -truncate q := by
  unfold truncate
  rcases lt_trichotomy q 0 with hneg | rfl | hpos
  · rw [if_pos (by linarith), if_neg (by linarith), Int.floor_neg]
  · simp
  · rw [if_neg (by linarith), if_pos hpos.le, Int.ceil_neg]

/-- The fraction of a quotient of natural numbers is its remainder. -/
theorem truncate_div_natCast (a b : ℕ) : truncate ((a : ℚ) / b) = (a / b : ℕ) := by
  rw [truncate, if_pos (by positivity)]
  exact Rat.floor_intCast_div_natCast a b

/-- Dropping the fraction of a quotient is division toward zero. -/
theorem truncate_div (a b : ℤ) : truncate ((a : ℚ) / b) = a.tdiv b := by
  obtain ⟨m, rfl | rfl⟩ := a.eq_nat_or_neg <;> obtain ⟨n, rfl | rfl⟩ := b.eq_nat_or_neg
  · exact truncate_div_natCast m n
  · rw [Int.cast_neg, div_neg, truncate_neg, Int.tdiv_neg]
    exact congrArg Neg.neg (truncate_div_natCast m n)
  · rw [Int.cast_neg, neg_div, truncate_neg, Int.neg_tdiv]
    exact congrArg Neg.neg (truncate_div_natCast m n)
  · rw [Int.cast_neg, Int.cast_neg, neg_div_neg_eq, Int.neg_tdiv_neg]
    exact truncate_div_natCast m n

namespace Decimal

/-! ## Numbers and coefficients -/

/-- The number that a decimal stands for. -/
def value (d : Decimal) : ℚ :=
  d.coefficient.toInt * (10 : ℚ) ^ (-d.scale.toInt)

/-- The coefficient of a number at a scale, without what lies behind the
point. -/
def coefficientAt (q : ℚ) (scale : ℤ) : ℤ :=
  truncate (q * (10 : ℚ) ^ scale)

/-- The number of a decimal with the point shifted. -/
theorem value_mul_zpow (d : Decimal) (scale : ℤ) :
    d.value * (10 : ℚ) ^ scale = d.coefficient.toInt * (10 : ℚ) ^ (scale - d.scale.toInt) := by
  rw [value, mul_assoc, ← zpow_add₀ (by norm_num), neg_add_eq_sub]

/-- The coefficient at a larger scale is the coefficient with zeros behind it. -/
theorem coefficientAt_value_of_le {d : Decimal} {scale : ℤ} {n : ℕ}
    (h : scale - d.scale.toInt = n) :
    coefficientAt d.value scale = d.coefficient.toInt * 10 ^ n := by
  rw [coefficientAt, value_mul_zpow, h, zpow_natCast]
  exact_mod_cast truncate_intCast (d.coefficient.toInt * 10 ^ n)

/-- The coefficient at a smaller scale is the coefficient without its last
digits. -/
theorem coefficientAt_value_of_lt {d : Decimal} {scale : ℤ} {n : ℕ}
    (h : scale - d.scale.toInt = -n) :
    coefficientAt d.value scale = d.coefficient.toInt.tdiv (10 ^ n) := by
  rw [coefficientAt, value_mul_zpow, h, zpow_neg, zpow_natCast, ← div_eq_mul_inv]
  exact_mod_cast truncate_div d.coefficient.toInt (10 ^ n)

/-- A number with a whole coefficient is that coefficient with the point shifted
back. -/
theorem eq_of_cast_coefficientAt {d : Decimal} {q : ℚ}
    (h : (d.coefficient.toInt : ℚ) = q * (10 : ℚ) ^ d.scale.toInt) : d.value = q := by
  rw [value, h, mul_assoc, ← zpow_add₀ (by norm_num), add_neg_cancel, zpow_zero, mul_one]

/-! ## Numbers without a fraction -/

/-- Whether nothing of a number lies behind the point at a scale. -/
def ExactAt (q : ℚ) (scale : ℤ) : Prop :=
  (coefficientAt q scale : ℚ) = q * (10 : ℚ) ^ scale

section ExactAt

variable {p q : ℚ} {scale i : ℤ} {a b : Decimal}

theorem coefficientAt_eq_of_intCast (h : q * (10 : ℚ) ^ scale = i) : coefficientAt q scale = i := by
  rw [coefficientAt, h, truncate_intCast]

theorem ExactAt.of_intCast (h : q * (10 : ℚ) ^ scale = i) : ExactAt q scale := by
  rw [ExactAt, coefficientAt_eq_of_intCast h, h]

/-- At its own and at every larger scale a decimal has no fraction. -/
theorem exactAt_value (h : a.scale.toInt ≤ scale) : ExactAt a.value scale := by
  obtain ⟨n, hn⟩ := Int.eq_ofNat_of_zero_le (sub_nonneg.mpr h)
  apply ExactAt.of_intCast (i := a.coefficient.toInt * 10 ^ n)
  rw [value_mul_zpow, hn, zpow_natCast]
  push_cast
  rfl

theorem ExactAt.add_mul_zpow (hp : ExactAt p scale) (hq : ExactAt q scale) :
    (p + q) * (10 : ℚ) ^ scale = (coefficientAt p scale + coefficientAt q scale : ℤ) := by
  rw [Int.cast_add, hp, hq, add_mul]

theorem ExactAt.sub_mul_zpow (hp : ExactAt p scale) (hq : ExactAt q scale) :
    (p - q) * (10 : ℚ) ^ scale = (coefficientAt p scale - coefficientAt q scale : ℤ) := by
  rw [Int.cast_sub, hp, hq, sub_mul]

/-- The product of two decimals with the point behind both fractions. -/
theorem product_mul_zpow (a b : Decimal) :
    a.value * b.value * (10 : ℚ) ^ (a.scale.toInt + b.scale.toInt) =
      (a.coefficient.toInt * b.coefficient.toInt : ℤ) := by
  have ha := value_mul_zpow a a.scale.toInt
  have hb := value_mul_zpow b b.scale.toInt
  rw [sub_self, zpow_zero, mul_one] at ha hb
  rw [zpow_add₀ (by norm_num), mul_mul_mul_comm, ha, hb]
  push_cast
  rfl

end ExactAt

/-! ## Quotients -/

/-- The quotient of two decimals with the point shifted. -/
theorem quotient_mul_zpow (a b : Decimal) (scale : ℤ) :
    a.value / b.value * (10 : ℚ) ^ scale =
      a.coefficient.toInt / b.coefficient.toInt *
        (10 : ℚ) ^ (scale - a.scale.toInt + b.scale.toInt) := by
  have hten : (10 : ℚ) ≠ 0 := by norm_num
  rw [value, value, zpow_add₀ hten, zpow_sub₀ hten, zpow_neg, zpow_neg]
  field_simp

/-- The coefficient of a quotient whose point moves to the right. -/
theorem coefficientAt_quotient_of_le {a b : Decimal} {scale : ℤ} {n : ℕ}
    (h : scale - a.scale.toInt + b.scale.toInt = n) :
    coefficientAt (a.value / b.value) scale =
      (a.coefficient.toInt * 10 ^ n).tdiv b.coefficient.toInt := by
  rw [coefficientAt, quotient_mul_zpow, h, zpow_natCast, div_mul_eq_mul_div]
  exact_mod_cast truncate_div (a.coefficient.toInt * 10 ^ n) b.coefficient.toInt

/-- The coefficient of a quotient whose point moves to the left. -/
theorem coefficientAt_quotient_of_lt {a b : Decimal} {scale : ℤ} {n : ℕ}
    (h : scale - a.scale.toInt + b.scale.toInt = -n) :
    coefficientAt (a.value / b.value) scale =
      a.coefficient.toInt.tdiv (b.coefficient.toInt * 10 ^ n) := by
  rw [coefficientAt, quotient_mul_zpow, h, zpow_neg, zpow_natCast, ← div_eq_mul_inv, div_div]
  exact_mod_cast truncate_div a.coefficient.toInt (b.coefficient.toInt * 10 ^ n)

end Decimal
end StructuredStore
