import StructuredStore.Proofs.Decimal.Arithmetic

/-!
# Overflows of decimal arithmetic

An operation on decimals overflows if its result does not fit.  Sums and
differences are taken of coefficients, so that both numbers have to fit at the
larger scale as well.

Main results:

- `rescale_eq_overflow_iff`, `add_eq_overflow_iff`, `sub_eq_overflow_iff`,
  `mul_eq_overflow_iff`, `div_eq_overflow_iff`: when an operation overflows.
- `overflow_iff_not_fits`: the same for numbers whose powers of ten and
  denominators stay within bounds.
-/

namespace StructuredStore.Decimal

/-! ## When an operation overflows -/

theorem rescale_eq_overflow_iff {a : Decimal} {scale : Int32} :
    a.rescale scale = .error .overflow ↔ ¬ a.Reaches scale := by
  constructor
  · intro h hreaches
    rw [rescale_of_reaches hreaches] at h
    cases h
  · exact rescale_of_not_reaches

theorem add_eq_overflow_iff {a b : Decimal} :
    a.add b = .error .overflow ↔
      ¬ (Aligned a b ∧ FitsInt64 (coefficientAt (a.value + b.value) (commonScale a b).toInt)) := by
  by_cases h : Aligned a b
  · simp [add_of_aligned h, fitted_eq_overflow_iff, h]
  · simp [add_of_not_aligned h, h]

theorem sub_eq_overflow_iff {a b : Decimal} :
    a.sub b = .error .overflow ↔
      ¬ (Aligned a b ∧ FitsInt64 (coefficientAt (a.value - b.value) (commonScale a b).toInt)) := by
  by_cases h : Aligned a b
  · simp [sub_of_aligned h, fitted_eq_overflow_iff, h]
  · simp [sub_of_not_aligned h, h]

theorem mul_eq_overflow_iff {a b : Decimal} :
    a.mul b = .error .overflow ↔
      ¬ (FitsInt32 (a.scale.toInt + b.scale.toInt) ∧
        FitsInt64 (coefficientAt (a.value * b.value) (a.scale.toInt + b.scale.toInt))) := by
  by_cases h : FitsInt32 (a.scale.toInt + b.scale.toInt)
  · obtain ⟨scale, hscale, hmul⟩ := mul_of_fits h
    simp [hmul, fitted_eq_overflow_iff, h, hscale]
  · simp [mul_of_not_fits h, h]

theorem div_eq_overflow_iff {a b : Decimal} (hb : b.coefficient ≠ 0) :
    a.div b = .error .overflow ↔
      ¬ (Divisible a b ∧
        FitsInt64 (coefficientAt (a.value / b.value) (commonScale a b).toInt)) := by
  by_cases h : Divisible a b
  · simp [div_of_divisible hb h, fitted_eq_overflow_iff, h]
  · simp [div_of_not_divisible hb h, h]

/-! ## Results that do not fit -/

/-- An operation overflows exactly if its result does not fit, or one of the two
numbers of a sum or a difference does not fit at the larger scale.  Left out are
zeros that move up by more than thirty-eight places and quotients whose
denominator does not fit 128 bits. -/
theorem overflow_iff_not_fits (a b : Decimal) (scale : Int32) :
    (a.Scalable scale → (a.rescale scale = .error .overflow ↔
      ¬ FitsInt64 (coefficientAt a.value scale.toInt))) ∧
    (a.Scalable (commonScale a b) → b.Scalable (commonScale a b) →
      (a.add b = .error .overflow ↔
        ¬ (FitsInt64 (coefficientAt a.value (max a.scale.toInt b.scale.toInt)) ∧
          FitsInt64 (coefficientAt b.value (max a.scale.toInt b.scale.toInt)) ∧
          FitsInt64 (coefficientAt (a.value + b.value) (max a.scale.toInt b.scale.toInt)))) ∧
      (a.sub b = .error .overflow ↔
        ¬ (FitsInt64 (coefficientAt a.value (max a.scale.toInt b.scale.toInt)) ∧
          FitsInt64 (coefficientAt b.value (max a.scale.toInt b.scale.toInt)) ∧
          FitsInt64 (coefficientAt (a.value - b.value) (max a.scale.toInt b.scale.toInt))))) ∧
    (a.mul b = .error .overflow ↔
      ¬ (FitsInt32 (a.scale.toInt + b.scale.toInt) ∧
        FitsInt64 (coefficientAt (a.value * b.value) (a.scale.toInt + b.scale.toInt)))) ∧
    (b.coefficient ≠ 0 → Divisible a b → (a.div b = .error .overflow ↔
      ¬ FitsInt64 (coefficientAt (a.value / b.value) (max a.scale.toInt b.scale.toInt)))) := by
  rw [← toInt_commonScale]
  refine ⟨?_, ?_, mul_eq_overflow_iff, ?_⟩
  · intro hscalable
    simp [rescale_eq_overflow_iff, Reaches, hscalable]
  · intro ha hb
    constructor
    · simp [add_eq_overflow_iff, Aligned, Reaches, ha, hb]
    · simp [sub_eq_overflow_iff, Aligned, Reaches, ha, hb]
  · intro hb hdivisible
    simp [div_eq_overflow_iff hb, hdivisible]

/-- The largest coefficient has no room for a further place, nor for the two
places of a hundredth that is added or divided by. -/
theorem overflow_iff_not_fits_largest :
    ¬ FitsInt64 (coefficientAt (value ⟨9223372036854775807, 0⟩) 1) ∧
      add ⟨9223372036854775807, 0⟩ ⟨1, 2⟩ = .error .overflow ∧
      ¬ FitsInt64 (coefficientAt (value ⟨9223372036854775807, 0⟩ / value ⟨1, 2⟩) 2) := by
  have hscalable : ∀ scale, Scalable ⟨9223372036854775807, 0⟩ scale :=
    fun _ hzero => absurd hzero (by decide)
  have hone : Scalable ⟨1, 2⟩ 2 := fun hzero => absurd hzero (by decide)
  have hdivisible : Divisible ⟨9223372036854775807, 0⟩ ⟨1, 2⟩ := by
    have hplaces : places ⟨9223372036854775807, 0⟩ ⟨1, 2⟩ = 4 := by decide
    refine ⟨fun _ => by omega, ?_⟩
    intro n hpos hn
    omega
  obtain ⟨hrescale, hadd, _, hdiv⟩ :=
    overflow_iff_not_fits ⟨9223372036854775807, 0⟩ ⟨1, 2⟩ 1
  refine ⟨(hrescale (hscalable 1)).mp (by decide +kernel), ?_, ?_⟩
  · refine (hadd (hscalable 2) hone).1.mpr ?_
    rintro ⟨hlarger, _⟩
    rw [coefficientAt_value_of_le (n := 2) (by decide)] at hlarger
    revert hlarger
    decide
  · exact (hdiv (by decide) hdivisible).mp (by decide +kernel)

/-- An overflow does not mean that the result does not fit.  The sum of ten to the
eighteenth and minus nine tenths of it has nineteen digits with its one place,
but the larger number alone has twenty. -/
theorem overflow_of_fitting :
    (add ⟨1000000000000000000, 0⟩ ⟨-9000000000000000000, 1⟩ = .error .overflow ∧
      coefficientAt (value ⟨1000000000000000000, 0⟩ + value ⟨-9000000000000000000, 1⟩) 1 =
        1000000000000000000) ∧
    (div ⟨1, 0⟩ ⟨1, -39⟩ = .error .overflow ∧
      coefficientAt (value ⟨1, 0⟩ / value ⟨1, -39⟩) 0 = 0) ∧
    (rescale ⟨0, 0⟩ 39 = .error .overflow ∧ coefficientAt (value ⟨0, 0⟩) 39 = 0) := by
  refine ⟨⟨by decide +kernel, ?_⟩, ⟨by decide +kernel, ?_⟩, by decide +kernel, ?_⟩
  · rw [coefficientAt_eq_of_intCast
        ((exactAt_value (by decide)).add_mul_zpow (exactAt_value (by decide))),
      coefficientAt_value_of_le (n := 1) (by decide),
      coefficientAt_value_of_le (n := 0) (by decide)]
    decide
  · rw [coefficientAt_quotient_of_lt (n := 39) (by decide)]
    decide
  · rw [coefficientAt_value_of_le (n := 39) (by decide)]
    decide

end StructuredStore.Decimal
