import StructuredStore.Proofs.Decimal.Value
import StructuredStore.Proofs.Time.Order

/-!
# Exact decimal arithmetic

Every operation on decimals answers the coefficient that its result has at a
scale known in advance, if that coefficient fits 64 bits.  Two things on the way
may fail although the coefficient fits: a zero is not moved up by more than
thirty-eight places, and the denominator of a quotient has to fit 128 bits.

Main results:

- `rescale_of_scalable`, `add_of_aligned`, `sub_of_aligned`, `mul_eq`,
  `div_of_divisible`: what each operation answers.
- `arithmetic_exact`: an answer is the exact number at its scale, or the number
  truncated toward zero where digits are dropped.
-/

namespace StructuredStore.Decimal

/-! ## Coefficients that fit -/

/-- Whether a number fits 128 bits. -/
def FitsInt128 (i : Int) : Prop :=
  -170141183460469231731687303715884105728 ≤ i ∧
    i ≤ 170141183460469231731687303715884105727

/-- Whether a number fits 32 bits. -/
def FitsInt32 (i : Int) : Prop :=
  -2147483648 ≤ i ∧ i ≤ 2147483647

/-- The decimal with the given coefficient and scale, if the coefficient fits. -/
def fitted (i : Int) (scale : Int32) : Except DataError Decimal := do
  return ⟨← narrow i, scale⟩

/-- A number is narrowed exactly if it fits 64 bits, and then it stays the same. -/
theorem narrow_eq_ok_iff {i : Int} {c : Int64} : narrow i = .ok c ↔ c.toInt = i := by
  have hlow : -9223372036854775808 ≤ c.toInt := c.le_toInt
  have hhigh : c.toInt ≤ 9223372036854775807 := c.toInt_le
  unfold narrow
  constructor
  · intro h
    split at h
    · rename_i hfits
      cases h
      exact Int64.toInt_ofInt_of_le (by omega) (by omega)
    · cases h
  · rintro rfl
    rw [if_pos ⟨hlow, hhigh⟩, Int64.ofInt_toInt]

/-- A number that does not fit 64 bits is too large. -/
theorem narrow_of_not_fits {i : Int} (h : ¬ FitsInt64 i) : narrow i = .error .overflow :=
  if_neg h

/-- One that fits is kept. -/
theorem narrow_of_fits {i : Int} (h : FitsInt64 i) : narrow i = .ok (Int64.ofInt i) :=
  if_pos h

/-- A result that does not fit 64 bits overflows. -/
theorem fitted_of_not_fits {i : Int} {scale : Int32} (h : ¬ FitsInt64 i) :
    fitted i scale = .error .overflow := by
  rw [fitted, narrow_of_not_fits h]
  rfl

/-- A result that fits is the decimal with that coefficient. -/
theorem fitted_eq_ok_iff {i : Int} {scale : Int32} {d : Decimal} :
    fitted i scale = .ok d ↔ d.coefficient.toInt = i ∧ d.scale = scale := by
  obtain ⟨c, s⟩ := d
  simp only [fitted, bind_eq_ok_iff, narrow_eq_ok_iff, pure_eq_ok]
  constructor
  · rintro ⟨c', hc, h⟩
    cases h
    exact ⟨hc, rfl⟩
  · rintro ⟨hc, rfl⟩
    exact ⟨c, hc, rfl⟩

/-- A result overflows exactly if it does not fit. -/
theorem fitted_eq_overflow_iff {i : Int} {scale : Int32} :
    fitted i scale = .error .overflow ↔ ¬ FitsInt64 i := by
  constructor
  · intro h hfits
    rw [fitted, narrow_of_fits hfits] at h
    cases h
  · exact fitted_of_not_fits

/-- An intermediate result that fits 128 bits is kept. -/
theorem wide_of_fits {i : Int} (h : FitsInt128 i) : wide i = .ok i :=
  if_pos h

/-- One that does not fit is too large. -/
theorem wide_of_not_fits {i : Int} (h : ¬ FitsInt128 i) : wide i = .error .overflow :=
  if_neg h

/-- What fits 64 bits fits 128. -/
theorem FitsInt128.of_fitsInt64 {i : Int} (h : FitsInt64 i) : FitsInt128 i := by
  unfold FitsInt64 at h
  unfold FitsInt128
  omega

/-- What fits 64 bits passes the check for 128 bits. -/
theorem wide_bind_fitted (i : Int) (scale : Int32) :
    (wide i >>= fun product => fitted product scale) = fitted i scale := by
  by_cases h : FitsInt128 i
  · rw [wide_of_fits h, ok_bind]
  · rw [wide_of_not_fits h, fitted_of_not_fits (mt FitsInt128.of_fitsInt64 h)]
    rfl

/-- Powers of ten up to the 38th fit 128 bits. -/
theorem powerOfTen_of_le {n : Nat} (h : n ≤ 38) : powerOfTen n = .ok (10 ^ n) := by
  rw [powerOfTen, if_pos h]
  rfl

/-- The 39th and all larger ones do not. -/
theorem powerOfTen_of_lt {n : Nat} (h : 38 < n) : powerOfTen n = .error .overflow :=
  if_neg (by omega)

/-! ## Sizes -/

/-- A coefficient is no larger than the smallest 64-bit number. -/
theorem natAbs_coefficient_le (d : Decimal) :
    d.coefficient.toInt.natAbs ≤ 9223372036854775808 := by
  have hlow : -9223372036854775808 ≤ d.coefficient.toInt := d.coefficient.le_toInt
  have hhigh : d.coefficient.toInt ≤ 9223372036854775807 := d.coefficient.toInt_le
  omega

/-- A coefficient other than zero is no zero as a number either. -/
theorem toInt_coefficient_ne_zero {d : Decimal} (h : d.coefficient ≠ 0) :
    d.coefficient.toInt ≠ 0 := fun hzero =>
  h (Int64.toInt_inj.mp (hzero.trans Int64.toInt_zero.symm))

/-- More than thirty-eight zeros make a number larger than any coefficient. -/
theorem ten_pow_le_natAbs {i : Int} {n : Nat} (hi : i ≠ 0) (hn : 38 < n) :
    10 ^ 39 ≤ (i * 10 ^ n).natAbs := by
  rw [Int.natAbs_mul, Int.natAbs_pow]
  calc 10 ^ 39 ≤ 10 ^ n := Nat.pow_le_pow_right (by decide) hn
    _ ≤ i.natAbs * 10 ^ n := Nat.le_mul_of_pos_left _ (Int.natAbs_pos.mpr hi)

/-- A number with a larger magnitude does not fit. -/
theorem not_fits_of_lt_natAbs {i : Int} (h : 9223372036854775808 < i.natAbs) :
    ¬ FitsInt64 i := by
  unfold FitsInt64
  omega

/-- A quotient of a number far beyond 64 bits by a coefficient does not fit. -/
theorem not_fits_tdiv {i j : Int} (hj : j ≠ 0) (hsmall : j.natAbs ≤ 9223372036854775808)
    (hlarge : 2 ^ 127 ≤ i.natAbs) : ¬ FitsInt64 (i.tdiv j) := by
  apply not_fits_of_lt_natAbs
  rw [Int.natAbs_tdiv]
  calc 9223372036854775808 < 2 ^ 127 / 9223372036854775808 := by norm_num
    _ ≤ i.natAbs / 9223372036854775808 := Nat.div_le_div_right hlarge
    _ ≤ i.natAbs / j.natAbs := Nat.div_le_div_left hsmall (Int.natAbs_pos.mpr hj)

/-! ## Scales -/

/-- Whether the power of ten that a rescaling multiplies with is within bounds
or does not matter: a number other than zero overflows long before. -/
def Scalable (d : Decimal) (scale : Int32) : Prop :=
  d.coefficient = 0 → scale.toInt - d.scale.toInt ≤ 38

/-- The coefficient at the new scale is answered, if it fits. -/
theorem rescale_of_scalable {a : Decimal} {scale : Int32} (h : a.Scalable scale) :
    a.rescale scale = fitted (coefficientAt a.value scale.toInt) scale := by
  have hsmall := a.natAbs_coefficient_le
  by_cases hup : 0 ≤ scale.toInt - a.scale.toInt
  · obtain ⟨n, hn⟩ := Int.eq_ofNat_of_zero_le hup
    simp only [rescale]
    rw [coefficientAt_value_of_le hn, if_pos hup, hn, Int.toNat_natCast]
    rcases Nat.lt_or_ge 38 n with hlarge | hle
    · have hne : a.coefficient ≠ 0 := fun hzero => by
        have hplaces := h hzero
        omega
      have hbound := ten_pow_le_natAbs (toInt_coefficient_ne_zero hne) hlarge
      rw [powerOfTen_of_lt hlarge, fitted_of_not_fits (not_fits_of_lt_natAbs (by omega))]
      rfl
    · rw [powerOfTen_of_le hle, ok_bind]
      exact wide_bind_fitted _ scale
  · obtain ⟨n, hn⟩ := Int.eq_ofNat_of_zero_le (show 0 ≤ -(scale.toInt - a.scale.toInt) by omega)
    simp only [rescale]
    rw [coefficientAt_value_of_lt (n := n) (by omega), if_neg hup, hn, Int.toNat_natCast]
    rcases Nat.lt_or_ge 38 n with hlarge | hle
    · have hzero : a.coefficient.toInt.tdiv (10 ^ n) = 0 := by
        have hbound := ten_pow_le_natAbs one_ne_zero hlarge
        rw [← Int.natAbs_eq_zero, Int.natAbs_tdiv]
        exact Nat.div_eq_of_lt (by omega)
      rw [powerOfTen_of_lt hlarge, hzero]
      rfl
    · rw [powerOfTen_of_le hle]
      rfl

/-- A scale beyond the powers of ten is refused. -/
theorem rescale_of_not_scalable {a : Decimal} {scale : Int32} (h : ¬ a.Scalable scale) :
    a.rescale scale = .error .overflow := by
  simp only [Scalable, Classical.not_imp, not_le] at h
  simp only [rescale]
  rw [if_pos (by omega), powerOfTen_of_lt (by omega)]
  rfl

/-- Whether the number can be brought to the scale. -/
def Reaches (d : Decimal) (scale : Int32) : Prop :=
  d.Scalable scale ∧ FitsInt64 (coefficientAt d.value scale.toInt)

/-- A decimal is brought to a scale that it reaches, where its value has this
coefficient. -/
theorem rescale_of_reaches {a : Decimal} {scale : Int32} (h : a.Reaches scale) :
    a.rescale scale = .ok ⟨Int64.ofInt (coefficientAt a.value scale.toInt), scale⟩ := by
  rw [rescale_of_scalable h.1, fitted, narrow_of_fits h.2]
  rfl

/-- A scale that is not reached is refused. -/
theorem rescale_of_not_reaches {a : Decimal} {scale : Int32} (h : ¬ a.Reaches scale) :
    a.rescale scale = .error .overflow := by
  by_cases hscalable : a.Scalable scale
  · rw [rescale_of_scalable hscalable]
    exact fitted_of_not_fits fun hfits => h ⟨hscalable, hfits⟩
  · exact rescale_of_not_scalable hscalable

/-- The larger of two scales, as a number. -/
theorem toInt_commonScale (a b : Decimal) :
    (commonScale a b).toInt = max a.scale.toInt b.scale.toInt := by
  simp only [commonScale, Int32.lt_iff_toInt_lt]
  split <;> omega

/-- Neither number has a fraction at the larger scale. -/
theorem exactAt_commonScale (a b : Decimal) :
    ExactAt a.value (commonScale a b).toInt ∧ ExactAt b.value (commonScale a b).toInt := by
  have hscale := toInt_commonScale a b
  exact ⟨exactAt_value (by omega), exactAt_value (by omega)⟩

/-! ## Sums and differences -/

/-- Whether both numbers can be brought to the larger of their scales. -/
def Aligned (a b : Decimal) : Prop :=
  a.Reaches (commonScale a b) ∧ b.Reaches (commonScale a b)

/-- Aligned decimals have their coefficients at the common scale. -/
theorem align_of_aligned {a b : Decimal} (h : Aligned a b) :
    ∃ x y, align a b = .ok (x, y) ∧
      x.toInt = coefficientAt a.value (commonScale a b).toInt ∧
      y.toInt = coefficientAt b.value (commonScale a b).toInt := by
  have hx := narrow_eq_ok_iff.mp (narrow_of_fits h.1.2)
  have hy := narrow_eq_ok_iff.mp (narrow_of_fits h.2.2)
  refine ⟨_, _, ?_, hx, hy⟩
  rw [align, rescale_of_reaches h.1, rescale_of_reaches h.2]
  rfl

/-- Decimals that cannot be aligned overflow. -/
theorem align_of_not_aligned {a b : Decimal} (h : ¬ Aligned a b) :
    align a b = .error .overflow := by
  by_cases ha : a.Reaches (commonScale a b)
  · rw [align, rescale_of_reaches ha, ok_bind, rescale_of_not_reaches fun hb => h ⟨ha, hb⟩]
    rfl
  · rw [align, rescale_of_not_reaches ha]
    rfl

/-- The coefficient of the sum is answered, if it fits. -/
theorem add_of_aligned {a b : Decimal} (h : Aligned a b) :
    a.add b =
      fitted (coefficientAt (a.value + b.value) (commonScale a b).toInt) (commonScale a b) := by
  obtain ⟨x, y, halign, hx, hy⟩ := align_of_aligned h
  obtain ⟨ha, hb⟩ := exactAt_commonScale a b
  rw [add, halign, coefficientAt_eq_of_intCast (ha.add_mul_zpow hb), ← hx, ← hy]
  rfl

/-- The coefficient of the difference is answered, if it fits. -/
theorem sub_of_aligned {a b : Decimal} (h : Aligned a b) :
    a.sub b =
      fitted (coefficientAt (a.value - b.value) (commonScale a b).toInt) (commonScale a b) := by
  obtain ⟨x, y, halign, hx, hy⟩ := align_of_aligned h
  obtain ⟨ha, hb⟩ := exactAt_commonScale a b
  rw [sub, halign, coefficientAt_eq_of_intCast (ha.sub_mul_zpow hb), ← hx, ← hy]
  rfl

/-- Decimals that cannot be aligned are not added, -/
theorem add_of_not_aligned {a b : Decimal} (h : ¬ Aligned a b) : a.add b = .error .overflow := by
  rw [add, align_of_not_aligned h]
  rfl

/-- nor subtracted. -/
theorem sub_of_not_aligned {a b : Decimal} (h : ¬ Aligned a b) : a.sub b = .error .overflow := by
  rw [sub, align_of_not_aligned h]
  rfl

/-! ## Products -/

/-- The sum of the scales, if it is a scale. -/
theorem exists_scale {i : Int} (h : FitsInt32 i) :
    ∃ scale : Int32, narrowScale i = .ok scale ∧ scale.toInt = i := by
  refine ⟨Int32.ofInt i, if_pos h, ?_⟩
  unfold FitsInt32 at h
  exact Int32.toInt_ofInt_of_le (by omega) (by omega)

/-- The coefficient of the product is answered, if it fits and the sum of the
scales is a scale. -/
theorem mul_of_fits {a b : Decimal} (h : FitsInt32 (a.scale.toInt + b.scale.toInt)) :
    ∃ scale : Int32, scale.toInt = a.scale.toInt + b.scale.toInt ∧
      a.mul b = fitted (coefficientAt (a.value * b.value) scale.toInt) scale := by
  obtain ⟨scale, hnarrow, hscale⟩ := exists_scale h
  refine ⟨scale, hscale, ?_⟩
  rw [hscale, coefficientAt_eq_of_intCast (product_mul_zpow a b), mul, hnarrow]
  rfl

/-- Scales whose sum does not fit are not multiplied. -/
theorem mul_of_not_fits {a b : Decimal} (h : ¬ FitsInt32 (a.scale.toInt + b.scale.toInt)) :
    a.mul b = .error .overflow := by
  have hnarrow : narrowScale (a.scale.toInt + b.scale.toInt) = .error .overflow := if_neg h
  rw [mul, hnarrow]
  unfold narrow
  split <;> rfl

/-! ## Quotients -/

/-- How many places the point moves to the right in a quotient. -/
def places (a b : Decimal) : Int :=
  (commonScale a b).toInt - a.scale.toInt + b.scale.toInt

/-- Whether the power of ten in a quotient is within bounds or does not matter,
and the denominator fits if it is the denominator that is multiplied. -/
def Divisible (a b : Decimal) : Prop :=
  (a.coefficient = 0 → places a b ≤ 38) ∧
    ∀ n : Nat, 0 < n → places a b = -n → FitsInt128 (b.coefficient.toInt * 10 ^ n)

/-- Division by zero is named as such, in front of any overflow. -/
theorem div_zero {a b : Decimal} (h : b.coefficient = 0) : a.div b = .error .divideByZero := by
  rw [div, if_pos h]
  rfl

/-- A quotient whose point moves to the right by multiplying the numerator. -/
theorem div_of_places {a b : Decimal} {n : Nat} (hb : b.coefficient ≠ 0) (hn : places a b = n) :
    a.div b = (powerOfTen n >>= fun factor =>
      wide (a.coefficient.toInt * factor) >>= fun numerator =>
        fitted (numerator.tdiv b.coefficient.toInt) (commonScale a b)) := by
  have hright : 0 ≤ (n : Int) := n.cast_nonneg
  unfold places at hn
  simp only [div, hb, if_false, hn, hright, if_true, Int.natAbs_natCast]
  rfl

/-- A quotient whose point moves to the left by multiplying the denominator. -/
theorem div_of_places_neg {a b : Decimal} {n : Nat} (hb : b.coefficient ≠ 0) (hpos : 0 < n)
    (hn : places a b = -n) :
    a.div b = (powerOfTen n >>= fun factor =>
      wide (b.coefficient.toInt * factor) >>= fun denominator =>
        fitted (a.coefficient.toInt.tdiv denominator) (commonScale a b)) := by
  have hleft : ¬ 0 ≤ -(n : Int) := by omega
  unfold places at hn
  simp only [div, hb, if_false, hn, hleft, Int.natAbs_neg, Int.natAbs_natCast]
  rfl

/-- The coefficient of the quotient is answered, if it fits. -/
theorem div_of_divisible {a b : Decimal} (hb : b.coefficient ≠ 0) (h : Divisible a b) :
    a.div b =
      fitted (coefficientAt (a.value / b.value) (commonScale a b).toInt) (commonScale a b) := by
  have hsmall := b.natAbs_coefficient_le
  have hnonzero := toInt_coefficient_ne_zero hb
  by_cases hright : 0 ≤ places a b
  · obtain ⟨n, hn⟩ := Int.eq_ofNat_of_zero_le hright
    rw [div_of_places hb hn, coefficientAt_quotient_of_le hn]
    rcases Nat.lt_or_ge 38 n with hlarge | hle
    · have hne : a.coefficient ≠ 0 := fun hzero => by
        have hplaces := h.1 hzero
        omega
      have hbound := ten_pow_le_natAbs (toInt_coefficient_ne_zero hne) hlarge
      rw [powerOfTen_of_lt hlarge, fitted_of_not_fits (not_fits_tdiv hnonzero hsmall (by omega))]
      rfl
    · rw [powerOfTen_of_le hle, ok_bind]
      by_cases hwide : FitsInt128 (a.coefficient.toInt * 10 ^ n)
      · rw [wide_of_fits hwide, ok_bind]
      · have hbound : 2 ^ 127 ≤ (a.coefficient.toInt * 10 ^ n).natAbs := by
          unfold FitsInt128 at hwide
          omega
        rw [wide_of_not_fits hwide, fitted_of_not_fits (not_fits_tdiv hnonzero hsmall hbound)]
        rfl
  · obtain ⟨n, hn⟩ := Int.eq_ofNat_of_zero_le (show 0 ≤ -places a b by omega)
    have hn : places a b = -n := by omega
    have hpos : 0 < n := by omega
    have hwide := h.2 n hpos hn
    have hle : n ≤ 38 := by
      by_contra hlarge
      have hbound := ten_pow_le_natAbs hnonzero (not_le.mp hlarge)
      unfold FitsInt128 at hwide
      omega
    rw [div_of_places_neg hb hpos hn, coefficientAt_quotient_of_lt hn, powerOfTen_of_le hle,
      ok_bind, wide_of_fits hwide, ok_bind]

/-- A division that needs more room than there is overflows. -/
theorem div_of_not_divisible {a b : Decimal} (hb : b.coefficient ≠ 0) (h : ¬ Divisible a b) :
    a.div b = .error .overflow := by
  by_cases hzero : a.coefficient = 0 → places a b ≤ 38
  · obtain ⟨n, hpos, hn, hwide⟩ :
        ∃ n : Nat, 0 < n ∧ places a b = -n ∧ ¬ FitsInt128 (b.coefficient.toInt * 10 ^ n) := by
      by_contra hnone
      push Not at hnone
      exact h ⟨hzero, hnone⟩
    rw [div_of_places_neg hb hpos hn]
    rcases Nat.lt_or_ge 38 n with hlarge | hle
    · rw [powerOfTen_of_lt hlarge]
      rfl
    · rw [powerOfTen_of_le hle, ok_bind, wide_of_not_fits hwide]
      rfl
  · simp only [Classical.not_imp, not_le] at hzero
    obtain ⟨n, hn⟩ := Int.eq_ofNat_of_zero_le (show 0 ≤ places a b by omega)
    rw [div_of_places hb hn, powerOfTen_of_lt (by omega)]
    rfl

/-! ## Exactness -/

/-- A decimal whose coefficient is that of a number without a fraction stands
for that number. -/
theorem value_of_fitted {d : Decimal} {q : ℚ} {scale : Int32} (hexact : ExactAt q scale.toInt)
    (h : fitted (coefficientAt q scale.toInt) scale = .ok d) :
    d.scale = scale ∧ d.value = q := by
  obtain ⟨hcoefficient, rfl⟩ := fitted_eq_ok_iff.mp h
  exact ⟨rfl, eq_of_cast_coefficientAt (by rw [hcoefficient, hexact])⟩

/-- A sum has the common scale and is exact. -/
theorem value_of_add {a b d : Decimal} (h : a.add b = .ok d) :
    d.scale = commonScale a b ∧ d.value = a.value + b.value := by
  by_cases haligned : Aligned a b
  · rw [add_of_aligned haligned] at h
    obtain ⟨ha, hb⟩ := exactAt_commonScale a b
    exact value_of_fitted (.of_intCast (ha.add_mul_zpow hb)) h
  · rw [add_of_not_aligned haligned] at h
    cases h

/-- So is a difference. -/
theorem value_of_sub {a b d : Decimal} (h : a.sub b = .ok d) :
    d.scale = commonScale a b ∧ d.value = a.value - b.value := by
  by_cases haligned : Aligned a b
  · rw [sub_of_aligned haligned] at h
    obtain ⟨ha, hb⟩ := exactAt_commonScale a b
    exact value_of_fitted (.of_intCast (ha.sub_mul_zpow hb)) h
  · rw [sub_of_not_aligned haligned] at h
    cases h

/-- A product has the sum of the scales and is exact. -/
theorem value_of_mul {a b d : Decimal} (h : a.mul b = .ok d) :
    d.scale.toInt = a.scale.toInt + b.scale.toInt ∧ d.value = a.value * b.value := by
  by_cases hfits : FitsInt32 (a.scale.toInt + b.scale.toInt)
  · obtain ⟨scale, hscale, hmul⟩ := mul_of_fits hfits
    rw [hmul] at h
    have hexact : ExactAt (a.value * b.value) scale.toInt := by
      rw [hscale]
      exact .of_intCast (product_mul_zpow a b)
    obtain ⟨rfl, hvalue⟩ := value_of_fitted hexact h
    exact ⟨hscale, hvalue⟩
  · rw [mul_of_not_fits hfits] at h
    cases h

/-- What a quotient answers has the coefficient of the quotient. -/
theorem coefficient_of_div {a b d : Decimal} (h : a.div b = .ok d) :
    d.scale = commonScale a b ∧
      d.coefficient.toInt = coefficientAt (a.value / b.value) (commonScale a b).toInt := by
  by_cases hb : b.coefficient = 0
  · rw [div_zero hb] at h
    cases h
  · by_cases hdivisible : Divisible a b
    · rw [div_of_divisible hb hdivisible, fitted_eq_ok_iff] at h
      exact h.symm
    · rw [div_of_not_divisible hb hdivisible] at h
      cases h

/-- What a rescaling answers has the coefficient of the number. -/
theorem coefficient_of_rescale {a d : Decimal} {scale : Int32} (h : a.rescale scale = .ok d) :
    d.scale = scale ∧ d.coefficient.toInt = coefficientAt a.value scale.toInt := by
  by_cases hscalable : a.Scalable scale
  · rw [rescale_of_scalable hscalable, fitted_eq_ok_iff] at h
    exact h.symm
  · rw [rescale_of_not_scalable hscalable] at h
    cases h

/-- Only zero is refused as a divisor. -/
theorem div_eq_divideByZero_iff {a b : Decimal} :
    a.div b = .error .divideByZero ↔ b.coefficient = 0 := by
  constructor
  · intro h
    by_contra hb
    by_cases hdivisible : Divisible a b
    · rw [div_of_divisible hb hdivisible] at h
      by_cases hfits : FitsInt64 (coefficientAt (a.value / b.value) (commonScale a b).toInt)
      · rw [fitted, narrow_of_fits hfits] at h
        cases h
      · rw [fitted_of_not_fits hfits] at h
        cases h
    · rw [div_of_not_divisible hb hdivisible] at h
      cases h
  · exact div_zero

/-- Arithmetic is exact when it answers.  Sums, differences and products are the
exact numbers, at the larger scale and at the sum of the scales.  Quotients and
rescaled numbers have the exact coefficient at their scale, truncated toward
zero; only zero cannot be divided by. -/
theorem arithmetic_exact (a b : Decimal) (scale : Int32) :
    (∀ d, a.add b = .ok d →
      d.scale.toInt = max a.scale.toInt b.scale.toInt ∧ d.value = a.value + b.value) ∧
    (∀ d, a.sub b = .ok d →
      d.scale.toInt = max a.scale.toInt b.scale.toInt ∧ d.value = a.value - b.value) ∧
    (∀ d, a.mul b = .ok d →
      d.scale.toInt = a.scale.toInt + b.scale.toInt ∧ d.value = a.value * b.value) ∧
    (a.div b = .error .divideByZero ↔ b.coefficient = 0) ∧
    (∀ d, a.div b = .ok d →
      d.scale.toInt = max a.scale.toInt b.scale.toInt ∧
        d.coefficient.toInt = coefficientAt (a.value / b.value) d.scale.toInt) ∧
    ∀ d, a.rescale scale = .ok d →
      d.scale = scale ∧ d.coefficient.toInt = coefficientAt a.value scale.toInt := by
  refine ⟨?_, ?_, ?_, div_eq_divideByZero_iff, ?_, ?_⟩
  · intro d h
    obtain ⟨hscale, hvalue⟩ := value_of_add h
    exact ⟨by rw [hscale, toInt_commonScale], hvalue⟩
  · intro d h
    obtain ⟨hscale, hvalue⟩ := value_of_sub h
    exact ⟨by rw [hscale, toInt_commonScale], hvalue⟩
  · intro d h
    exact value_of_mul h
  · intro d h
    obtain ⟨hscale, hcoefficient⟩ := coefficient_of_div h
    exact ⟨by rw [hscale, toInt_commonScale], by rw [hscale, hcoefficient]⟩
  · intro d h
    exact coefficient_of_rescale h

/-- The sum of 1.5 and 0.125 has three places, and minus seven halves become
minus three. -/
theorem arithmetic_exact_sum :
    add ⟨15, 1⟩ ⟨125, 3⟩ = .ok ⟨1625, 3⟩ ∧
      value ⟨1625, 3⟩ = value ⟨15, 1⟩ + value ⟨125, 3⟩ ∧
      rescale ⟨-35, 1⟩ 0 = .ok ⟨-3, 0⟩ ∧ coefficientAt (value ⟨-35, 1⟩) 0 = -3 := by
  have hsum : add ⟨15, 1⟩ ⟨125, 3⟩ = .ok ⟨1625, 3⟩ := by decide +kernel
  have hrescale : rescale ⟨-35, 1⟩ 0 = .ok ⟨-3, 0⟩ := by decide +kernel
  have hvalue := ((arithmetic_exact ⟨15, 1⟩ ⟨125, 3⟩ 0).1 _ hsum).2
  have hcoefficient := ((arithmetic_exact ⟨-35, 1⟩ ⟨1, 0⟩ 0).2.2.2.2.2 _ hrescale).2
  exact ⟨hsum, hvalue, hrescale, hcoefficient.symm⟩

end StructuredStore.Decimal
