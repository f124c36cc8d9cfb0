import StructuredStore.Proofs.Binary64.Rounding
import StructuredStore.Proofs.Decimal.Arithmetic

/-!
# The order of decimals

Decimals that can be brought to one scale are compared exactly.  For the others
the floating-point neighbours are compared, which lie within a few hundred
roundings of the numbers as long as they are finite and not zero.

Main results:

- `compareValue_swap`: the comparison of two decimals, the other way around.
- `compareValue_of_aligned`: decimals that can be aligned are compared exactly.
- `tracks_toBinary64`: where the neighbour of a decimal lies.
- `Resolved`: which scales keep the neighbours of two decimals apart.
- `place_le_of_lt`: neighbours are never in the opposite order, and in the same one
  if the scales keep them apart.
- `compareValue_numeric`: when the comparison is the order of the numbers.
-/

namespace StructuredStore.Decimal

open Binary64 (kept kept_pow_pos kept_pow_anti top top_pos signed signed_zero)

variable {a b d : Decimal}

/-! ## Aligned decimals -/

theorem commonScale_comm (a b : Decimal) : commonScale a b = commonScale b a := by
  rw [← Int32.toInt_inj, toInt_commonScale, toInt_commonScale, max_comm]

theorem aligned_comm : Aligned a b ↔ Aligned b a := by
  rw [Aligned, Aligned, commonScale_comm a b, and_comm]

/-- Decimals that can be aligned are compared exactly. -/
theorem compareValue_of_aligned (h : Aligned a b) :
    compareValue a b = compare a.value b.value := by
  obtain ⟨x, y, halign, hx, hy⟩ := align_of_aligned h
  obtain ⟨ha, hb⟩ := exactAt_commonScale a b
  have hten : (0 : ℚ) < 10 ^ (commonScale a b).toInt := zpow_pos (by norm_num) _
  have hcast : StrictMono fun i : ℤ => (i : ℚ) := Int.cast_strictMono
  have hshift : StrictMono fun q : ℚ => q * 10 ^ (commonScale a b).toInt :=
    fun _ _ hlt => mul_lt_mul_of_pos_right hlt hten
  have hcoefficients : cmp (x.toInt : ℚ) y.toInt = cmp x.toInt y.toInt := hcast.cmp_map_eq _ _
  have hvalues := hshift.cmp_map_eq a.value b.value
  rw [hx, hy, ha, hb] at hcoefficients
  rw [compareValue, halign]
  simp only [hx, hy]
  rw [← cmp_eq_compare, ← cmp_eq_compare]
  exact hcoefficients.symm.trans hvalues

/-- Other decimals are compared by where their neighbours lie. -/
theorem compareValue_of_not_aligned (h : ¬ Aligned a b) :
    compareValue a b = ((a.toBinary64.place?.bind fun p =>
      b.toBinary64.place?.map fun q => compare p q).getD .eq) := by
  rw [compareValue, align_of_not_aligned h, ← Binary64.compare?_eq]

/-- The comparison the other way around. -/
theorem compareValue_swap (a b : Decimal) : compareValue b a = (compareValue a b).swap := by
  by_cases h : Aligned a b
  · rw [compareValue_of_aligned h, compareValue_of_aligned (aligned_comm.mp h), ← cmp_eq_compare,
      ← cmp_eq_compare, cmp_swap]
  · rw [compareValue_of_not_aligned h, compareValue_of_not_aligned (aligned_comm.not.mp h)]
    cases a.toBinary64.place? with
    | none => cases b.toBinary64.place? <;> rfl
    | some p =>
        cases b.toBinary64.place? with
        | none => rfl
        | some q =>
            simp only [Option.bind_some, Option.map_some, Option.getD_some]
            rw [← cmp_eq_compare, ← cmp_eq_compare]
            exact (cmp_swap p q).symm

/-! ## Neighbours -/

/-- Where the neighbour of a decimal other than zero lies, whatever its sign: within
512 roundings of the number, at the top if that is too large, and at zero if it is too
small. -/
structure Tracks (d : Decimal) (place : ℚ) : Prop where
  nonneg : 0 ≤ place
  le_top : place ≤ top
  le_abs : place * kept ^ 512 ≤ |d.value|
  abs_le : d.scale.toInt ≤ 308 → |d.value| * kept ^ 512 ≤ place ∨ place = top
  vanishes : 308 < d.scale.toInt → place = 0

/-- The magnitude of a decimal. -/
theorem abs_value (d : Decimal) :
    |d.value| = (d.coefficient.toInt.natAbs : ℚ) / (10 : ℚ) ^ d.scale.toInt := by
  have hten : (0 : ℚ) < 10 ^ (-d.scale.toInt) := zpow_pos (by norm_num) _
  rw [value, abs_mul, abs_of_pos hten, zpow_neg, ← div_eq_mul_inv, Nat.cast_natAbs, Int.cast_abs]

/-- A coefficient other than zero is at least one in magnitude. -/
theorem one_le_natAbs_coefficient (h : d.coefficient.toInt ≠ 0) :
    (1 : ℚ) ≤ d.coefficient.toInt.natAbs := by
  exact_mod_cast Int.natAbs_pos.mpr h

/-- What approximates a decimal tracks it. -/
theorem exists_tracks_of_approximates {k : ℕ} {negative : Bool} (hk : k ≤ 512)
    (hscale : d.scale.toInt ≤ 308)
    (h : Binary64.Approximates k negative |d.value| d.toBinary64) :
    ∃ place, Tracks d place ∧ d.toBinary64.place? = some (signed negative place) := by
  rcases h.mono (abs_nonneg _) hk with ⟨m, e, hshape, hnear⟩ | ⟨hshape, hlarge⟩
  · refine ⟨Binary64.amount m e, ⟨Binary64.amount_nonneg m e, (Binary64.amount_lt_top hshape).le,
      hnear.2, fun _ => Or.inl hnear.1, fun hlarge => absurd hlarge (not_lt.mpr hscale)⟩, ?_⟩
    rw [Binary64.place?, hshape]
  · refine ⟨top, ⟨top_pos.le, le_rfl, hlarge, fun _ => Or.inr rfl,
      fun hlarge => absurd hlarge (not_lt.mpr hscale)⟩, ?_⟩
    rw [Binary64.place?, hshape]

/-- Zero tracks the decimals with too many places. -/
theorem tracks_zero (h : 308 < d.scale.toInt) : Tracks d 0 where
  nonneg := le_rfl
  le_top := top_pos.le
  le_abs := by
    rw [zero_mul]
    exact abs_nonneg _
  abs_le hscale := absurd hscale (not_le.mpr h)
  vanishes _ := rfl

/-- The top tracks the decimals with too few places. -/
theorem tracks_top (hne : d.coefficient.toInt ≠ 0) (h : d.scale.toInt < -308) : Tracks d top where
  nonneg := top_pos.le
  le_top := le_rfl
  le_abs := by
    have hten : (0 : ℚ) < 10 ^ d.scale.toInt := zpow_pos (by norm_num) _
    have hplaces : (10 : ℚ) ^ (309 : ℕ) * 10 ^ d.scale.toInt ≤ 1 := by
      rw [← zpow_natCast, ← zpow_add₀ (by norm_num)]
      exact zpow_le_one_of_nonpos₀ (by norm_num) (by push_cast; omega)
    have hlarge : (10 : ℚ) ^ (309 : ℕ) ≤ |d.value| := by
      rw [abs_value, le_div_iff₀ hten]
      exact hplaces.trans (one_le_natAbs_coefficient hne)
    calc top * kept ^ 512 ≤ top := mul_le_of_le_one_right top_pos.le (Binary64.kept_pow_le_one _)
      _ ≤ 3 / 4 * 10 ^ 309 := Binary64.top_le_ten_pow
      _ ≤ 10 ^ 309 := mul_le_of_le_one_left (pow_nonneg (by norm_num) _) (by norm_num)
      _ ≤ |d.value| := hlarge
  abs_le _ := Or.inr rfl
  vanishes hlarge := by omega

/-- A decimal with at most 308 places is not too small to be rounded to all its
digits. -/
theorem one_le_abs_value_mul_top (hne : d.coefficient.toInt ≠ 0) (h : d.scale.toInt ≤ 308) :
    1 ≤ |d.value| * (3 / 4 * top) := by
  have hten : (0 : ℚ) < 10 ^ d.scale.toInt := zpow_pos (by norm_num) _
  have hpow : (10 : ℚ) ^ d.scale.toInt ≤ 10 ^ (308 : ℕ) := by
    rw [← zpow_natCast]
    exact zpow_le_zpow_right₀ (by norm_num) h
  have hroom : (10 : ℚ) ^ d.scale.toInt ≤ 3 / 4 * top := hpow.trans Binary64.ten_pow_lt_top.le
  rw [abs_value, div_mul_eq_mul_div, one_le_div hten]
  exact hroom.trans (le_mul_of_one_le_left (mul_pos (by norm_num) top_pos).le
    (one_le_natAbs_coefficient hne))

/-- The neighbour of a decimal other than zero has its sign and tracks it. -/
theorem tracks_toBinary64 (h : d.coefficient.toInt ≠ 0) :
    ∃ place, Tracks d place ∧
      d.toBinary64.place? = some (signed (decide (d.coefficient.toInt < 0)) place) := by
  have hlow : -2147483648 ≤ d.scale.toInt := d.scale.le_toInt
  have hhigh : d.scale.toInt ≤ 2147483647 := d.scale.toInt_le
  have hone := one_le_natAbs_coefficient h
  obtain ⟨m, e, hcoefficient, hnear⟩ := Binary64.exists_ofInt_finite h d.natAbs_coefficient_le
  -- The power of ten by which the coefficient is divided is infinite, zero or finite.
  rcases lt_or_ge 308 d.scale.toInt with hlarge | hsmall
  · refine ⟨0, tracks_zero hlarge, ?_⟩
    rw [toBinary64, Binary64.place?, Binary64.div, hcoefficient,
      Binary64.shape_powerOfTen_infinite hlarge (by omega)]
    simp only [Bool.bne_false, Binary64.shape_zero, Binary64.amount_zero]
  · rcases lt_or_ge d.scale.toInt (-308) with hneg | hmoderate
    · have hm := Binary64.ne_zero_of_amount_pos (hnear.pos (by linarith))
      refine ⟨top, tracks_top h hneg, ?_⟩
      rw [toBinary64, Binary64.place?, Binary64.div, hcoefficient,
        Binary64.shape_powerOfTen_zero hneg (by omega)]
      simp only [if_neg hm, if_true]
      rw [Binary64.shape_infinity]
      simp
    · obtain ⟨n, f, hpower, hnear'⟩ :=
        Binary64.exists_powerOfTen_finite (show d.scale.toInt.natAbs ≤ 308 by omega)
      have hten : (0 : ℚ) < 10 ^ d.scale.toInt := zpow_pos (by norm_num) _
      have hquotient := Binary64.approximates_div hcoefficient hpower hnear hnear' (by linarith) hten
        (by norm_num) (abs_value d ▸ one_le_abs_value_mul_top h hsmall)
      rw [← abs_value, Bool.bne_false] at hquotient
      exact exists_tracks_of_approximates (by norm_num) hsmall hquotient

/-- The neighbour of zero is zero, or no number if there is no power of ten to divide
by. -/
theorem place_toBinary64_of_zero (h : d.coefficient.toInt = 0) :
    (d.toBinary64.place? = none ∨ d.toBinary64.place? = some 0) ∧
      (-308 ≤ d.scale.toInt → d.toBinary64.place? = some 0) := by
  have hlow : -2147483648 ≤ d.scale.toInt := d.scale.le_toInt
  have hhigh : d.scale.toInt ≤ 2147483647 := d.scale.toInt_le
  have hzero : (Binary64.ofInt 0).shape = .finite false 0 0 := by decide +kernel
  have hnear : -308 ≤ d.scale.toInt → d.toBinary64.place? = some 0 := by
    intro hscale
    rcases lt_or_ge 308 d.scale.toInt with hlarge | hsmall
    · have hpower := Binary64.shape_powerOfTen_infinite hlarge (by omega)
      rw [toBinary64, h, Binary64.place?, Binary64.div, hzero, hpower]
      simp only [Bool.bne_false, Binary64.shape_zero, Binary64.amount_zero, signed_zero]
    · obtain ⟨n, f, hpower, hnear⟩ :=
        Binary64.exists_powerOfTen_finite (show d.scale.toInt.natAbs ≤ 308 by omega)
      have hn := Binary64.ne_zero_of_amount_pos (hnear.pos (zpow_pos (by norm_num) _))
      rw [toBinary64, h, Binary64.div, hzero, hpower]
      simp only [if_neg hn, Nat.zero_mul, Binary64.ofRatio]
      exact Binary64.place_ofUnits_zero _ _
  refine ⟨?_, hnear⟩
  rcases lt_or_ge d.scale.toInt (-308) with hneg | hmoderate
  · left
    have hpower := Binary64.shape_powerOfTen_zero hneg (by omega)
    rw [toBinary64, h, Binary64.div, hzero, hpower]
    decide
  · exact Or.inr (hnear hmoderate)

/-! ## Decimals that cannot be aligned -/

/-- A decimal has the sign of its coefficient. -/
theorem value_pos_iff : 0 < d.value ↔ 0 < d.coefficient.toInt := by
  have hten : (0 : ℚ) < 10 ^ (-d.scale.toInt) := zpow_pos (by norm_num) _
  rw [value, mul_pos_iff_of_pos_right hten, Int.cast_pos]

/-- It is zero exactly if the coefficient is, -/
theorem value_eq_zero_iff : d.value = 0 ↔ d.coefficient.toInt = 0 := by
  have hten : (10 : ℚ) ^ (-d.scale.toInt) ≠ 0 := (zpow_pos (by norm_num) _).ne'
  rw [value, mul_eq_zero, or_iff_left hten, Int.cast_eq_zero]

/-- and negative exactly if that is. -/
theorem value_neg_iff : d.value < 0 ↔ d.coefficient.toInt < 0 := by
  rw [← not_le, ← not_le, le_iff_lt_or_eq, le_iff_lt_or_eq, value_pos_iff, eq_comm, value_eq_zero_iff,
    @eq_comm ℤ 0]

/-- At its own scale a decimal has its coefficient. -/
theorem coefficientAt_own (d : Decimal) :
    coefficientAt d.value d.scale.toInt = d.coefficient.toInt := by
  have hcoefficient := @coefficientAt_value_of_le d d.scale.toInt 0 (by omega)
  rwa [pow_zero, mul_one] at hcoefficient

/-- Of two decimals that cannot be aligned, the one with fewer places is too large at
the scale of the other one, unless it is zero. -/
theorem not_fits_of_not_aligned (h : ¬ Aligned a b) (hscale : a.scale.toInt ≤ b.scale.toInt)
    (ha : a.coefficient.toInt ≠ 0) : ¬ FitsInt64 (coefficientAt a.value b.scale.toInt) := by
  have hcommon : commonScale a b = b.scale := by
    rw [← Int32.toInt_inj, toInt_commonScale]
    omega
  have hzero : ¬ a.coefficient = 0 := fun heq => ha (by rw [heq]; rfl)
  have hown : FitsInt64 (coefficientAt b.value b.scale.toInt) :=
    coefficientAt_own b ▸ ⟨b.coefficient.le_toInt, b.coefficient.toInt_le⟩
  intro hfits
  refine h ⟨?_, ?_⟩ <;> rw [hcommon]
  · exact ⟨fun heq => absurd heq hzero, hfits⟩
  · exact ⟨fun _ => by omega, hown⟩

/-- Of two decimals that cannot be aligned, the one with fewer places is the larger
one, unless it is zero. -/
theorem abs_le_abs_of_not_aligned (h : ¬ Aligned a b) (hscale : a.scale.toInt ≤ b.scale.toInt)
    (ha : a.coefficient.toInt ≠ 0) : |b.value| ≤ |a.value| := by
  have hten : (0 : ℚ) < 10 ^ b.scale.toInt := zpow_pos (by norm_num) _
  have hfits := not_fits_of_not_aligned h hscale ha
  have hlarge : b.coefficient.toInt.natAbs ≤ (coefficientAt a.value b.scale.toInt).natAbs := by
    have hsmall := b.natAbs_coefficient_le
    unfold FitsInt64 at hfits
    omega
  have hcast : |(coefficientAt b.value b.scale.toInt : ℚ)| ≤
      |(coefficientAt a.value b.scale.toInt : ℚ)| := by
    rw [← Int.cast_abs, ← Int.cast_abs, Int.cast_le, Int.abs_eq_natAbs, Int.abs_eq_natAbs,
      coefficientAt_own]
    exact_mod_cast hlarge
  rw [exactAt_value hscale, exactAt_value le_rfl, abs_mul, abs_mul] at hcast
  exact le_of_mul_le_mul_right hcast (abs_pos.mpr hten.ne')

/-- Two decimals of the same number can be aligned, unless they are zero. -/
theorem coefficient_eq_zero_of_not_aligned (h : ¬ Aligned a b) (heq : a.value = b.value) :
    a.coefficient.toInt = 0 := by
  have hfits : ∀ d : Decimal, FitsInt64 (coefficientAt d.value d.scale.toInt) := fun d =>
    coefficientAt_own d ▸ ⟨d.coefficient.le_toInt, d.coefficient.toInt_le⟩
  by_contra ha
  have hb : b.coefficient.toInt ≠ 0 := fun hzero =>
    ha (value_eq_zero_iff.mp (heq.trans (value_eq_zero_iff.mpr hzero)))
  rcases le_total a.scale.toInt b.scale.toInt with hscale | hscale
  · exact not_fits_of_not_aligned h hscale ha (heq ▸ hfits b)
  · exact not_fits_of_not_aligned (aligned_comm.not.mp h) hscale hb (heq ▸ hfits a)

/-- A decimal with a scale from -289 on lies below the top, by more than 512
roundings. -/
theorem abs_value_lt_top (h : -289 ≤ d.scale.toInt) : |d.value| < top * kept ^ 512 := by
  have hten : (0 : ℚ) < 10 ^ d.scale.toInt := zpow_pos (by norm_num) _
  have hbound : (d.coefficient.toInt.natAbs : ℚ) ≤ 10 ^ (19 : ℕ) := by
    have hsmall := d.natAbs_coefficient_le
    have hnat : d.coefficient.toInt.natAbs ≤ 10 ^ 19 := by omega
    exact_mod_cast hnat
  have hplaces : (10 : ℚ) ^ (19 : ℕ) ≤ 10 ^ (308 : ℕ) * 10 ^ d.scale.toInt := by
    rw [← zpow_natCast, ← zpow_natCast, ← zpow_add₀ (by norm_num)]
    exact zpow_le_zpow_right₀ (by norm_num) (by push_cast; omega)
  calc |d.value| ≤ 10 ^ 308 := by
        rw [abs_value, div_le_iff₀ hten]
        exact hbound.trans hplaces
    _ < 3 / 4 * top := Binary64.ten_pow_lt_top
    _ ≤ kept ^ 512 * top :=
      mul_le_mul_of_nonneg_right (Binary64.three_quarters_le_kept_pow (by norm_num)) top_pos.le
    _ = top * kept ^ 512 := mul_comm _ _

namespace Tracks

variable {p q : ℚ}

/-- The neighbour of a decimal with at most 308 places is no zero. -/
theorem pos (h : Tracks d p) (hd : d.coefficient.toInt ≠ 0) (hscale : d.scale.toInt ≤ 308) :
    0 < p := by
  rcases h.abs_le hscale with hnear | rfl
  · have hvalue : d.value ≠ 0 := fun hzero => hd (value_eq_zero_iff.mp hzero)
    exact (mul_pos (abs_pos.mpr hvalue) (kept_pow_pos 512)).trans_le hnear
  · exact top_pos

/-- Neighbours of decimals that are far enough from each other are in order, unless
both are zero or at the top. -/
theorem le_of_abs_lt (ha : Tracks a p) (hb : Tracks b q)
    (hlt : |a.value| < |b.value| * kept ^ 1024)
    (hscale : 308 < b.scale.toInt → 308 < a.scale.toInt) :
    p ≤ q ∧ (b.scale.toInt ≤ 308 → -289 ≤ a.scale.toInt → p < q) := by
  rcases lt_or_ge 308 b.scale.toInt with hlarge | hsmall
  · rw [ha.vanishes (hscale hlarge), hb.vanishes hlarge]
    exact ⟨le_rfl, fun hvisible => absurd hvisible (not_le.mpr hlarge)⟩
  · rcases hb.abs_le hsmall with hnear | rfl
    · have hroundings : p * kept ^ 512 < q * kept ^ 512 := by
        calc p * kept ^ 512 ≤ |a.value| := ha.le_abs
          _ < |b.value| * kept ^ 1024 := hlt
          _ = |b.value| * kept ^ 512 * kept ^ 512 := by rw [mul_assoc, ← pow_add]
          _ ≤ q * kept ^ 512 := mul_le_mul_of_nonneg_right hnear (kept_pow_pos 512).le
      have hpq := lt_of_mul_lt_mul_right hroundings (kept_pow_pos 512).le
      exact ⟨hpq.le, fun _ _ => hpq⟩
    · refine ⟨ha.le_top, fun _ hfinite => ?_⟩
      exact lt_of_mul_lt_mul_right (ha.le_abs.trans_lt (abs_value_lt_top hfinite))
        (kept_pow_pos 512).le

end Tracks

/-- Whether two numbers differ by more than one part in `2 ^ 43` of the larger one. -/
def Apart (a b : Decimal) : Prop :=
  max |a.value| |b.value| / 2 ^ 43 < |a.value - b.value|

theorem apart_comm : Apart a b ↔ Apart b a := by
  rw [Apart, Apart, max_comm, abs_sub_comm]

/-- The distance of two numbers of one sign, in roundings. -/
theorem Apart.abs_lt (h : Apart a b) (hlt : |a.value| < |b.value|)
    (hsign : |a.value - b.value| ≤ |b.value| - |a.value|) :
    |a.value| < |b.value| * kept ^ 1024 := by
  have hkept : 1 - (1024 : ℕ) / 2 ^ 53 ≤ kept ^ 1024 := Binary64.one_sub_le_kept_pow 1024
  rw [Apart, max_eq_right hlt.le] at h
  calc |a.value| < |b.value| * (1 - 1 / 2 ^ 43) := by linarith
    _ ≤ |b.value| * kept ^ 1024 := by
      refine mul_le_mul_of_nonneg_left (le_trans ?_ hkept) (abs_nonneg _)
      norm_num

/-- Which scales keep the neighbours of two decimals apart: the neighbour of a zero is
a number and the other one is not rounded to zero; not both are rounded to zero, and
of decimals of one sign not both are rounded to infinity. -/
structure Resolved (a b : Decimal) : Prop where
  left_zero : a.coefficient.toInt = 0 → -308 ≤ a.scale.toInt ∧ b.scale.toInt ≤ 308
  right_zero : b.coefficient.toInt = 0 → -308 ≤ b.scale.toInt ∧ a.scale.toInt ≤ 308
  visible : a.scale.toInt ≤ 308 ∨ b.scale.toInt ≤ 308
  finite : 0 < a.coefficient.toInt * b.coefficient.toInt →
    -289 ≤ a.scale.toInt ∨ -289 ≤ b.scale.toInt

theorem Resolved.symm (h : Resolved a b) : Resolved b a where
  left_zero := h.right_zero
  right_zero := h.left_zero
  visible := h.visible.symm
  finite hsign := (h.finite (mul_comm b.coefficient.toInt _ ▸ hsign)).symm

/-- The neighbours of decimals of one sign that cannot be aligned and are apart. -/
theorem Tracks.le_of_apart {p q : ℚ} (ha : Tracks a p) (hb : Tracks b q)
    (haligned : ¬ Aligned a b) (hapart : Apart a b)
    (hproduct : 0 < a.coefficient.toInt * b.coefficient.toInt)
    (hlt : |a.value| < |b.value|) (hsign : |a.value - b.value| ≤ |b.value| - |a.value|) :
    p ≤ q ∧ (Resolved a b → p < q) := by
  -- The smaller one has more places.
  have hplaces : b.scale.toInt < a.scale.toInt := by
    by_contra hle
    have hne : a.coefficient.toInt ≠ 0 := left_ne_zero_of_mul hproduct.ne'
    exact absurd (abs_le_abs_of_not_aligned haligned (by omega) hne) (not_le.mpr hlt)
  obtain ⟨hle, hstrict⟩ := ha.le_of_abs_lt hb (hapart.abs_lt hlt hsign) (by omega)
  refine ⟨hle, fun hresolved => hstrict ?_ ?_⟩
  · have hvisible := hresolved.visible
    omega
  · have hfinite := hresolved.finite hproduct
    omega

/-- A neighbour that is known tracks its decimal. -/
theorem exists_tracks {p : ℚ} (hp : d.toBinary64.place? = some p) (h : d.coefficient.toInt ≠ 0) :
    ∃ place, Tracks d place ∧ p = signed (decide (d.coefficient.toInt < 0)) place := by
  obtain ⟨place, htracks, heq⟩ := tracks_toBinary64 h
  exact ⟨place, htracks, Option.some.inj (hp.symm.trans heq)⟩

/-- A neighbour of zero that is a number is zero. -/
theorem place_eq_zero {p : ℚ} (hp : d.toBinary64.place? = some p) (h : d.coefficient.toInt = 0) :
    p = 0 := by
  rcases (place_toBinary64_of_zero h).1 with hnone | hsome
  · rw [hnone] at hp
    cases hp
  · exact Option.some.inj (hp.symm.trans hsome)

/-- The neighbour of a decimal has no other sign. -/
theorem place_nonneg {p : ℚ} (hp : d.toBinary64.place? = some p) (h : 0 ≤ d.coefficient.toInt) :
    0 ≤ p ∧ (0 < d.coefficient.toInt → d.scale.toInt ≤ 308 → 0 < p) := by
  rcases h.eq_or_lt with hzero | hpos
  · rw [place_eq_zero hp hzero.symm]
    exact ⟨le_rfl, fun hpos => absurd hzero hpos.ne⟩
  · obtain ⟨place, htracks, rfl⟩ := exists_tracks hp hpos.ne'
    rw [decide_eq_false hpos.not_gt, Binary64.signed_false]
    exact ⟨htracks.nonneg, fun _ => htracks.pos hpos.ne'⟩

/-- Nor does that of a decimal that is not positive. -/
theorem place_nonpos {p : ℚ} (hp : d.toBinary64.place? = some p) (h : d.coefficient.toInt ≤ 0) :
    p ≤ 0 ∧ (d.coefficient.toInt < 0 → d.scale.toInt ≤ 308 → p < 0) := by
  rcases h.eq_or_lt with hzero | hneg
  · rw [place_eq_zero hp hzero]
    exact ⟨le_rfl, fun hneg => absurd hzero hneg.ne⟩
  · obtain ⟨place, htracks, rfl⟩ := exists_tracks hp hneg.ne
    rw [decide_eq_true hneg, Binary64.signed_true]
    exact ⟨neg_nonpos.mpr htracks.nonneg,
      fun _ hscale => neg_lt_zero.mpr (htracks.pos hneg.ne hscale)⟩

section Places

variable {p q : ℚ}

/-- The neighbours of positive decimals that cannot be aligned and are apart. -/
theorem place_le_of_lt_of_pos (haligned : ¬ Aligned a b) (hapart : Apart a b)
    (hlt : a.value < b.value) (ha : 0 < a.coefficient.toInt)
    (hp : a.toBinary64.place? = some p) (hq : b.toBinary64.place? = some q) :
    p ≤ q ∧ (Resolved a b → p < q) := by
  have hava := value_pos_iff.mpr ha
  have hbvb := hava.trans hlt
  have hb := value_pos_iff.mp hbvb
  obtain ⟨m, hm, rfl⟩ := exists_tracks hp ha.ne'
  obtain ⟨n, hn, rfl⟩ := exists_tracks hq hb.ne'
  rw [decide_eq_false ha.not_gt, decide_eq_false hb.not_gt, Binary64.signed_false,
    Binary64.signed_false]
  have habs : |a.value| < |b.value| := by rwa [abs_of_pos hava, abs_of_pos hbvb]
  have hsign : |a.value - b.value| ≤ |b.value| - |a.value| := by
    rw [abs_of_neg (by linarith), abs_of_pos hava, abs_of_pos hbvb]
    linarith
  exact hm.le_of_apart hn haligned hapart (mul_pos ha hb) habs hsign

/-- Those of negative ones are those of the positive ones, the other way around. -/
theorem place_le_of_lt_of_neg (haligned : ¬ Aligned a b) (hapart : Apart a b)
    (hlt : a.value < b.value) (hb : b.coefficient.toInt < 0)
    (hp : a.toBinary64.place? = some p) (hq : b.toBinary64.place? = some q) :
    p ≤ q ∧ (Resolved a b → p < q) := by
  have hbvb := value_neg_iff.mpr hb
  have hava := hlt.trans hbvb
  have ha := value_neg_iff.mp hava
  obtain ⟨m, hm, rfl⟩ := exists_tracks hp ha.ne
  obtain ⟨n, hn, rfl⟩ := exists_tracks hq hb.ne
  rw [decide_eq_true ha, decide_eq_true hb, Binary64.signed_true, Binary64.signed_true]
  have habs : |b.value| < |a.value| := by
    rw [abs_of_neg hava, abs_of_neg hbvb]
    linarith
  have hsign : |b.value - a.value| ≤ |a.value| - |b.value| := by
    rw [abs_of_pos (by linarith), abs_of_neg hava, abs_of_neg hbvb]
    linarith
  obtain ⟨hle, hstrict⟩ := hn.le_of_apart hm (aligned_comm.not.mp haligned)
    (apart_comm.mp hapart) (mul_pos_of_neg_of_neg hb ha) habs hsign
  exact ⟨neg_le_neg hle, fun hresolved => neg_lt_neg (hstrict hresolved.symm)⟩

/-- The neighbours of decimals that cannot be aligned and are apart are not in the
opposite order, and not equal if the scales keep them apart. -/
theorem place_le_of_lt (haligned : ¬ Aligned a b) (hapart : Apart a b)
    (hlt : a.value < b.value) (hp : a.toBinary64.place? = some p)
    (hq : b.toBinary64.place? = some q) :
    p ≤ q ∧ (Resolved a b → p < q) := by
  rcases lt_or_ge 0 a.coefficient.toInt with ha | ha
  · exact place_le_of_lt_of_pos haligned hapart hlt ha hp hq
  · rcases lt_or_ge b.coefficient.toInt 0 with hb | hb
    · exact place_le_of_lt_of_neg haligned hapart hlt hb hp hq
    -- Numbers on different sides of zero are kept there, and one of them is visible.
    · obtain ⟨hp0, hpneg⟩ := place_nonpos hp ha
      obtain ⟨hq0, hqpos⟩ := place_nonneg hq hb
      refine ⟨hp0.trans hq0, fun hresolved => ?_⟩
      rcases ha.eq_or_lt with hzero | hneg
      · have hpos := value_pos_iff.mp ((value_eq_zero_iff.mpr hzero) ▸ hlt)
        exact hp0.trans_lt (hqpos hpos (hresolved.left_zero hzero).2)
      rcases hb.eq_or_lt with hzero | hpos
      · exact (hpneg hneg (hresolved.right_zero hzero.symm).2).trans_le hq0
      rcases hresolved.visible with hvisible | hvisible
      · exact (hpneg hneg hvisible).trans_le hq0
      · exact hp0.trans_lt (hqpos hpos hvisible)

end Places

/-! ## When the comparison is numeric -/

/-- The neighbour of a decimal is a number, unless it is a zero with too few places. -/
theorem exists_place (h : d.coefficient.toInt = 0 → -308 ≤ d.scale.toInt) :
    ∃ p, d.toBinary64.place? = some p := by
  by_cases hd : d.coefficient.toInt = 0
  · exact ⟨0, (place_toBinary64_of_zero hd).2 (h hd)⟩
  · obtain ⟨place, -, hplace⟩ := tracks_toBinary64 hd
    exact ⟨_, hplace⟩

/-- The smaller one of two decimals that are apart is not found to be the larger one,
and is found to be the smaller one if the scales keep the neighbours apart. -/
theorem compareValue_of_lt (hapart : Apart a b) (hlt : a.value < b.value) :
    (compareValue a b = .lt ∨ compareValue a b = .eq) ∧
      (Resolved a b → compareValue a b = .lt) := by
  by_cases haligned : Aligned a b
  · have hless : compareValue a b = .lt := by
      rw [compareValue_of_aligned haligned, compare_lt_iff_lt]
      exact hlt
    exact ⟨Or.inl hless, fun _ => hless⟩
  · rw [compareValue_of_not_aligned haligned]
    constructor
    · cases hp : a.toBinary64.place? with
      | none => exact Or.inr rfl
      | some p =>
          cases hq : b.toBinary64.place? with
          | none => exact Or.inr rfl
          | some q =>
              have hle := (place_le_of_lt haligned hapart hlt hp hq).1
              exact hle.lt_or_eq.imp compare_lt_iff_lt.mpr compare_eq_iff_eq.mpr
    · intro hresolved
      obtain ⟨p, hp⟩ := exists_place fun hzero => (hresolved.left_zero hzero).1
      obtain ⟨q, hq⟩ := exists_place fun hzero => (hresolved.right_zero hzero).1
      rw [hp, hq]
      exact compare_lt_iff_lt.mpr ((place_le_of_lt haligned hapart hlt hp hq).2 hresolved)

/-- Decimals of the same number are found to be equal. -/
theorem compareValue_of_value_eq (h : a.value = b.value) : compareValue a b = .eq := by
  by_cases haligned : Aligned a b
  · rw [compareValue_of_aligned haligned, compare_eq_iff_eq]
    exact h
  · have ha := coefficient_eq_zero_of_not_aligned haligned h
    have hb := coefficient_eq_zero_of_not_aligned (aligned_comm.not.mp haligned) h.symm
    rw [compareValue_of_not_aligned haligned]
    rcases (place_toBinary64_of_zero ha).1 with hp | hp <;>
      rcases (place_toBinary64_of_zero hb).1 with hq | hq <;> rw [hp, hq]
    · rfl
    · rfl
    · rfl
    · exact compare_eq_iff_eq.mpr rfl

/-- Whether the comparison of two decimals cannot be misled by rounding: they can be
aligned, or are equal, or are apart and have scales that keep their neighbours apart. -/
def Decided (a b : Decimal) : Prop :=
  Aligned a b ∨ a.value = b.value ∨ Apart a b ∧ Resolved a b

/-- A comparison that rounding cannot mislead is that of the numbers. -/
theorem compareValue_of_decided (h : Decided a b) :
    compareValue a b = compare a.value b.value := by
  rcases h with haligned | heq | ⟨hapart, hresolved⟩
  · exact compareValue_of_aligned haligned
  · rw [compareValue_of_value_eq heq, eq_comm, compare_eq_iff_eq]
    exact heq
  · rcases lt_trichotomy a.value b.value with hlt | heq | hgt
    · rw [(compareValue_of_lt hapart hlt).2 hresolved, eq_comm, compare_lt_iff_lt]
      exact hlt
    · rw [compareValue_of_value_eq heq, eq_comm, compare_eq_iff_eq]
      exact heq
    · rw [compareValue_swap b a,
        (compareValue_of_lt (apart_comm.mp hapart) hgt).2 hresolved.symm, eq_comm, Ordering.swap,
        compare_gt_iff_gt]
      exact hgt

/-- Decimals that are apart are not found to be in the opposite order. -/
theorem compareValue_of_apart (h : Apart a b) :
    compareValue a b = compare a.value b.value ∨ compareValue a b = .eq := by
  rcases lt_trichotomy a.value b.value with hlt | heq | hgt
  · rw [compare_lt_iff_lt.mpr hlt]
    exact (compareValue_of_lt h hlt).1
  · exact Or.inr (compareValue_of_value_eq heq)
  · rw [compareValue_swap b a, compare_gt_iff_gt.mpr hgt]
    rcases (compareValue_of_lt (apart_comm.mp h) hgt).1 with hless | hequal
    · exact Or.inl (by rw [hless]; rfl)
    · exact Or.inr (by rw [hequal]; rfl)

/-- The comparison of decimals.  Swapping the decimals swaps the answer, and decimals
of the same number are equal.  Where two decimals can be aligned, or are apart and
have scales that keep their neighbours apart, the answer is the order of the numbers:
it is equality only for equal numbers, and does not lead in a circle.  Decimals that
are apart are never found to be in the opposite order, whatever their scales. -/
theorem compareValue_numeric :
    (∀ a b, compareValue b a = (compareValue a b).swap) ∧
    (∀ a b, a.value = b.value → compareValue a b = .eq) ∧
    (∀ a b, Decided a b → compareValue a b = compare a.value b.value ∧
      (compareValue a b = .eq ↔ a.value = b.value)) ∧
    (∀ a b c, Decided a b → Decided b c → Decided a c → compareValue a b ≠ .gt →
      compareValue b c ≠ .gt → compareValue a c ≠ .gt) ∧
    ∀ a b, Apart a b →
      compareValue a b = compare a.value b.value ∨ compareValue a b = .eq := by
  refine ⟨compareValue_swap, fun _ _ => compareValue_of_value_eq, ?_, ?_,
    fun _ _ => compareValue_of_apart⟩
  · intro a b h
    have hcompare := compareValue_of_decided h
    exact ⟨hcompare, by rw [hcompare, compare_eq_iff_eq]⟩
  · intro a b c hab hbc hac
    rw [compareValue_of_decided hab, compareValue_of_decided hbc, compareValue_of_decided hac,
      compare_le_iff_le, compare_le_iff_le, compare_le_iff_le]
    exact le_trans

/-- One cannot be brought to forty places, but is apart from one at the fortieth place
and found to be larger. -/
theorem compareValue_numeric_far :
    ¬ Aligned ⟨1, 40⟩ ⟨1, 0⟩ ∧ Decided ⟨1, 40⟩ ⟨1, 0⟩ ∧ Apart ⟨1, 40⟩ ⟨1, 0⟩ ∧
      compareValue ⟨1, 40⟩ ⟨1, 0⟩ = compare (value ⟨1, 40⟩) (value ⟨1, 0⟩) ∧
      compareValue ⟨1, 40⟩ ⟨1, 0⟩ = .lt := by
  have hone : value ⟨1, 0⟩ = 1 := by
    rw [value, show Int64.toInt 1 = 1 from rfl, show Int32.toInt 0 = 0 from rfl]
    norm_num
  have hsmall : value ⟨1, 40⟩ = 1 / 10 ^ 40 := by
    rw [value, show Int64.toInt 1 = 1 from rfl, show Int32.toInt 40 = 40 from rfl]
    norm_num
  have hapart : Apart ⟨1, 40⟩ ⟨1, 0⟩ := by
    rw [Apart, hone, hsmall, abs_one, max_eq_right (by norm_num)]
    norm_num
  have haligned : ¬ Aligned ⟨1, 40⟩ ⟨1, 0⟩ := by
    intro h
    obtain ⟨x, y, halign, -⟩ := align_of_aligned h
    have hfail : align ⟨1, 40⟩ ⟨1, 0⟩ = .error .overflow := by decide +kernel
    rw [hfail] at halign
    cases halign
  have hdecided : Decided ⟨1, 40⟩ ⟨1, 0⟩ :=
    Or.inr (Or.inr ⟨hapart, by decide, by decide, by decide, by decide⟩)
  have hcompare := (compareValue_numeric.2.2.1 _ _ hdecided).1
  refine ⟨haligned, hdecided, hapart, hcompare, ?_⟩
  rw [hcompare, compare_lt_iff_lt, hone, hsmall]
  norm_num

/-- Two numbers that differ in the last digit only are found to be equal, and the second
one and a third one as well, because they have one neighbour; the first one and the third
one can be aligned and are in order. -/
theorem compareValue_rounded :
    compareValue ⟨922337203685477581, 0⟩ ⟨9223372036854775807, 1⟩ = .eq ∧
      value ⟨9223372036854775807, 1⟩ < value ⟨922337203685477581, 0⟩ ∧
      compareValue ⟨9223372036854775807, 1⟩ ⟨922337203685477582, 0⟩ = .eq ∧
      compareValue ⟨922337203685477581, 0⟩ ⟨922337203685477582, 0⟩ = .lt := by
  refine ⟨by decide +kernel, ?_, by decide +kernel, by decide +kernel⟩
  rw [value, value, show Int64.toInt 922337203685477581 = 922337203685477581 from rfl,
    show Int64.toInt 9223372036854775807 = 9223372036854775807 from rfl,
    show Int32.toInt 0 = 0 from rfl, show Int32.toInt 1 = 1 from rfl]
  norm_num

end StructuredStore.Decimal
