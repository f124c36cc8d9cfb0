import Mathlib.Algebra.Order.Field.Power
import Mathlib.Data.Nat.Cast.Order.Field
import Mathlib.Order.Compare
import Mathlib.Tactic.FieldSimp
import Mathlib.Tactic.Linarith
import Mathlib.Tactic.NormNum
import Mathlib.Tactic.Positivity
import Mathlib.Tactic.Ring
import StructuredStore.Binary64.Basic

/-!
# How far roundings lead

A rounded number lies within a factor of `1 - 2 ^ (-53)` of the exact one, unless
it is too small for all its digits.  Such factors multiply: after a number of
roundings the result lies within the factor to that power.  A number that is too
large is rounded to infinity, which is ordered as if it were `2 ^ 1024`.

Main results:

- `Near`: numbers within a number of roundings of each other.
- `near_roundUnits`, `approximates_ofUnits`: the error of one rounding.
- `approximates_mul`, `approximates_div`: errors of products and quotients.
- `approximates_powerLoop`: a power of ten has as many roundings as its exponent.
- `compare?_eq`: numbers are compared by their places.
-/

namespace StructuredStore.Binary64

/-! ## Factors of roundings -/

/-- What a rounding keeps of a number at least. -/
def kept : ℚ := 1 - 1 / 2 ^ 53

/-- Rounding keeps something of a number, -/
theorem kept_pos : 0 < kept := by
  norm_num [kept]

/-- but never more than all of it. -/
theorem kept_le_one : kept ≤ 1 := by
  norm_num [kept]

theorem kept_pow_pos (k : ℕ) : 0 < kept ^ k := pow_pos kept_pos k

theorem kept_pow_le_one (k : ℕ) : kept ^ k ≤ 1 := pow_le_one₀ kept_pos.le kept_le_one

/-- More roundings keep less. -/
theorem kept_pow_anti {k l : ℕ} (h : k ≤ l) : kept ^ l ≤ kept ^ k :=
  pow_le_pow_of_le_one kept_pos.le kept_le_one h

/-- Each rounding takes away one part in `2 ^ 53` at most. -/
theorem one_sub_le_kept_pow (k : ℕ) : 1 - (k : ℚ) / 2 ^ 53 ≤ kept ^ k := by
  have h : (-2 : ℚ) ≤ -(1 / 2 ^ 53) := by norm_num
  calc 1 - (k : ℚ) / 2 ^ 53 = 1 + k * -(1 / 2 ^ 53) := by ring
    _ ≤ (1 + -(1 / 2 ^ 53)) ^ k := one_add_mul_le_pow h k
    _ = kept ^ k := by rw [kept, sub_eq_add_neg]

/-- Whether each of two numbers is the other one up to a number of roundings. -/
def Near (k : ℕ) (p q : ℚ) : Prop :=
  p * kept ^ k ≤ q ∧ q * kept ^ k ≤ p

namespace Near

variable {k l : ℕ} {p q r s : ℚ}

theorem refl (p : ℚ) : Near 0 p p := by
  simp [Near]

/-- Numbers near a third one are near each other, by the roundings of both. -/
theorem trans (h : Near k p q) (h' : Near l q r) : Near (k + l) p r := by
  have hk := (kept_pow_pos k).le
  have hl := (kept_pow_pos l).le
  constructor
  · calc p * kept ^ (k + l) = p * kept ^ k * kept ^ l := by rw [pow_add, mul_assoc]
      _ ≤ q * kept ^ l := mul_le_mul_of_nonneg_right h.1 hl
      _ ≤ r := h'.1
  · calc r * kept ^ (k + l) = r * kept ^ l * kept ^ k := by rw [pow_add]; ring
      _ ≤ q * kept ^ k := mul_le_mul_of_nonneg_right h'.2 hk
      _ ≤ p := h.2

/-- More roundings allow for more distance. -/
theorem mono (h : Near k p q) (hp : 0 ≤ p) (hq : 0 ≤ q) (hkl : k ≤ l) : Near l p q :=
  ⟨(mul_le_mul_of_nonneg_left (kept_pow_anti hkl) hp).trans h.1,
    (mul_le_mul_of_nonneg_left (kept_pow_anti hkl) hq).trans h.2⟩

/-- What is near a positive number is positive. -/
theorem pos (h : Near k p q) (hp : 0 < p) : 0 < q :=
  (mul_pos hp (kept_pow_pos k)).trans_le h.1

/-- Products of near numbers are near, by the roundings of both factors. -/
theorem mul (h : Near k p q) (h' : Near l r s) (hp : 0 < p) (hr : 0 < r) :
    Near (k + l) (p * r) (q * s) := by
  have hq := h.pos hp
  have hs := h'.pos hr
  have hk := (kept_pow_pos k).le
  have hl := (kept_pow_pos l).le
  constructor
  · calc p * r * kept ^ (k + l) = p * kept ^ k * (r * kept ^ l) := by rw [pow_add]; ring
      _ ≤ q * s := mul_le_mul h.1 h'.1 (mul_nonneg hr.le hl) hq.le
  · calc q * s * kept ^ (k + l) = q * kept ^ k * (s * kept ^ l) := by rw [pow_add]; ring
      _ ≤ p * r := mul_le_mul h.2 h'.2 (mul_nonneg hs.le hl) hp.le

/-- Inverses of near numbers are as near. -/
theorem inv (h : Near k p q) (hp : 0 < p) : Near k p⁻¹ q⁻¹ := by
  have hq := h.pos hp
  constructor
  · rw [inv_mul_le_iff₀ hp, ← div_eq_mul_inv, le_div_iff₀ hq, mul_comm]
    exact h.2
  · rw [inv_mul_le_iff₀ hq, ← div_eq_mul_inv, le_div_iff₀ hp, mul_comm]
    exact h.1

/-- So are quotients, by the roundings of both. -/
theorem div (h : Near k p q) (h' : Near l r s) (hp : 0 < p) (hr : 0 < r) :
    Near (k + l) (p / r) (q / s) := by
  rw [div_eq_mul_inv, div_eq_mul_inv]
  exact h.mul (h'.inv hr) hp (inv_pos.mpr hr)

theorem div_const (h : Near k p q) {c : ℚ} (hc : 0 < c) : Near k (p / c) (q / c) := by
  constructor
  · rw [div_mul_eq_mul_div, div_le_div_iff_of_pos_right hc]
    exact h.1
  · rw [div_mul_eq_mul_div, div_le_div_iff_of_pos_right hc]
    exact h.2

/-- A number off by a small part of the other one is near it. -/
theorem of_abs_sub_le {part : ℚ} (hpart : 0 ≤ part) (hkept : kept ^ k ≤ 1 - part) (hp : 0 ≤ p)
    (h : |q - p| ≤ part * p) : Near k p q := by
  obtain ⟨hlow, hhigh⟩ := abs_le.mp h
  constructor
  · calc p * kept ^ k ≤ p * (1 - part) := mul_le_mul_of_nonneg_left hkept hp
      _ ≤ q := by linarith
  · calc q * kept ^ k ≤ (p * (1 + part)) * kept ^ k :=
          mul_le_mul_of_nonneg_right (by linarith) (kept_pow_pos k).le
      _ ≤ (p * (1 + part)) * (1 - part) :=
          mul_le_mul_of_nonneg_left hkept (mul_nonneg hp (by linarith))
      _ = p - p * part ^ 2 := by ring
      _ ≤ p := sub_le_self _ (by positivity)

end Near

/-! ## Rounding to units -/

/-- Rounding goes down or up to a neighbouring integer. -/
theorem roundHalfEven_bounds (num den : ℕ) :
    num / den ≤ roundHalfEven num den ∧ roundHalfEven num den ≤ num / den + 1 := by
  simp only [roundHalfEven]
  split
  · omega
  · split <;> omega

/-- A quotient is its whole part and what the remainder adds. -/
theorem cast_div_cast_eq (num : ℕ) {den : ℕ} (hden : 0 < den) :
    (num : ℚ) / den = (num / den : ℕ) + ((num % den : ℕ) : ℚ) / den := by
  have hdenQ : (den : ℚ) ≠ 0 := by exact_mod_cast hden.ne'
  have hsplit : (num : ℚ) = (num / den : ℕ) * den + (num % den : ℕ) := by
    exact_mod_cast (Nat.div_add_mod' num den).symm
  rw [eq_comm, ← eq_sub_iff_add_eq', div_eq_iff hdenQ, sub_mul, div_mul_cancel₀ _ hdenQ,
    eq_sub_iff_add_eq', ← hsplit]

/-- Rounding a quotient is off by half a unit at most. -/
theorem abs_roundHalfEven_sub_le (num : ℕ) {den : ℕ} (hden : 0 < den) :
    |(roundHalfEven num den : ℚ) - (num : ℚ) / den| ≤ 1 / 2 := by
  have hdenQ : (0 : ℚ) < den := by exact_mod_cast hden
  have hrest : ((num % den : ℕ) : ℚ) / den ≤ 1 := by
    rw [div_le_one hdenQ]
    exact_mod_cast (Nat.mod_lt num hden).le
  have hcast : ∀ a b : ℕ, a ≤ b → (a : ℚ) ≤ b := fun a b h => by exact_mod_cast h
  rw [cast_div_cast_eq num hden, abs_le]
  simp only [roundHalfEven]
  split
  · rename_i hsmall
    have hbelow : ((num % den : ℕ) : ℚ) / den ≤ 1 / 2 := by
      rw [div_le_div_iff₀ hdenQ (by norm_num)]
      have := hcast _ _ hsmall.le
      push_cast at this
      linarith
    have hzero : (0 : ℚ) ≤ ((num % den : ℕ) : ℚ) / den := by positivity
    constructor <;> linarith
  · split
    · rename_i hlarge
      have habove : 1 / 2 ≤ ((num % den : ℕ) : ℚ) / den := by
        rw [div_le_div_iff₀ (by norm_num) hdenQ]
        have := hcast _ _ hlarge.le
        push_cast at this
        linarith
      push_cast
      constructor <;> linarith
    · rename_i hsmall hlarge
      have hequal : ((num % den : ℕ) : ℚ) / den = 1 / 2 := by
        rw [div_eq_div_iff hdenQ.ne' (by norm_num)]
        have : 2 * (num % den) = den := le_antisymm (not_lt.mp hlarge) (not_lt.mp hsmall)
        exact_mod_cast (by omega : num % den * 2 = 1 * den)
      have hodd : ((num / den % 2 : ℕ) : ℚ) ≤ 1 := by
        exact_mod_cast Nat.lt_succ_iff.mp (Nat.mod_lt _ (by norm_num))
      have hzero : (0 : ℚ) ≤ ((num / den % 2 : ℕ) : ℚ) := by positivity
      push_cast at hodd hzero ⊢
      constructor <;> linarith

section Units

variable {num den : ℕ}

/-- The exponent with which a quotient is rounded. -/
def unitExponent (num den : ℕ) : ℕ :=
  Nat.log2 (num / den) - 52

/-- The significand to which a quotient is rounded. -/
def unitSignificand (num den : ℕ) : ℕ :=
  roundHalfEven num (den * 2 ^ unitExponent num den)

/-- The whole number to which a quotient is rounded, were there no largest one. -/
def roundUnits (num den : ℕ) : ℕ :=
  unitSignificand num den * 2 ^ unitExponent num den

/-- A quotient in units is written down by its exponent and its significand, or is
infinite. -/
theorem ofUnits_eq (negative : Bool) (num den : ℕ) :
    ofUnits negative num den = ofSign negative
      (min (unitExponent num den * significands + unitSignificand num den) infinityBits) := rfl

/-- A significand has 53 digits at most, apart from a carry. -/
theorem unitSignificand_le : unitSignificand num den ≤ 2 ^ 53 := by
  have hbound := (roundHalfEven_bounds num (den * 2 ^ unitExponent num den)).2
  have hlog : num / den < 2 ^ (53 + unitExponent num den) := by
    refine Nat.lt_log2_self.trans_le (Nat.pow_le_pow_right (by norm_num) ?_)
    unfold unitExponent
    omega
  rw [← Nat.div_div_eq_div_mul] at hbound
  rw [pow_add, mul_comm] at hlog
  have hfloor : num / den / 2 ^ unitExponent num den < 2 ^ 53 := Nat.div_lt_of_lt_mul hlog
  exact hbound.trans hfloor

/-- A significand has 53 digits, unless its exponent is the smallest one. -/
theorem le_unitSignificand (h : 0 < unitExponent num den) :
    2 ^ 52 ≤ unitSignificand num den ∧ 2 ^ (52 + unitExponent num den) ≤ num / den := by
  have hbound := (roundHalfEven_bounds num (den * 2 ^ unitExponent num den)).1
  have hpos : num / den ≠ 0 := by
    intro hzero
    rw [unitExponent, hzero] at h
    exact absurd h (by decide)
  have hlog : 2 ^ (52 + unitExponent num den) ≤ num / den := by
    refine le_trans (Nat.pow_le_pow_right (by norm_num) ?_) (Nat.log2_self_le hpos)
    unfold unitExponent at h ⊢
    omega
  have hfloor : 2 ^ 52 ≤ num / den / 2 ^ unitExponent num den := by
    rw [Nat.le_div_iff_mul_le (by positivity), ← pow_add]
    exact hlog
  rw [← Nat.div_div_eq_div_mul] at hbound
  exact ⟨hfloor.trans hbound, hlog⟩

/-- A quotient is rounded within half a unit, or within one part in `2 ^ 53`. -/
theorem abs_roundUnits_sub_le (num : ℕ) {den : ℕ} (hden : 0 < den) :
    |(roundUnits num den : ℚ) - (num : ℚ) / den| ≤ 1 / 2 ∨
      |(roundUnits num den : ℚ) - (num : ℚ) / den| ≤ 1 / 2 ^ 53 * ((num : ℚ) / den) := by
  have hpow : (0 : ℚ) < 2 ^ unitExponent num den := by positivity
  have hdenQ : (0 : ℚ) < den := by exact_mod_cast hden
  have herror : |(roundUnits num den : ℚ) - (num : ℚ) / den| ≤
      1 / 2 * 2 ^ unitExponent num den := by
    have hround := abs_roundHalfEven_sub_le num
      (show 0 < den * 2 ^ unitExponent num den by positivity)
    have hfactor : (roundUnits num den : ℚ) - (num : ℚ) / den =
        ((unitSignificand num den : ℚ) -
          (num : ℚ) / ((den * 2 ^ unitExponent num den : ℕ) : ℚ)) * 2 ^ unitExponent num den := by
      rw [roundUnits, sub_mul]
      push_cast
      field_simp
    rw [hfactor, abs_mul, abs_of_pos hpow]
    exact mul_le_mul_of_nonneg_right hround hpow.le
  rcases Nat.eq_zero_or_pos (unitExponent num den) with hzero | hpos
  · left
    rwa [hzero, pow_zero, mul_one] at herror
  · right
    have hlarge : (2 : ℚ) ^ 52 * 2 ^ unitExponent num den ≤ (num : ℚ) / den := by
      rw [← pow_add]
      calc (2 : ℚ) ^ (52 + unitExponent num den) ≤ ((num / den : ℕ) : ℚ) := by
            exact_mod_cast (le_unitSignificand hpos).2
        _ ≤ (num : ℚ) / den := Nat.cast_div_le
    linarith

/-- Rounding a quotient of enough units is rounding its last digits. -/
theorem near_roundUnits (hden : 0 < den) (h : (2 : ℚ) ^ 52 ≤ (num : ℚ) / den) :
    Near 1 ((num : ℚ) / den) (roundUnits num den) := by
  apply Near.of_abs_sub_le (show (0 : ℚ) ≤ 1 / 2 ^ 53 by positivity) (by rw [pow_one, kept])
    (by positivity)
  rcases abs_roundUnits_sub_le num hden with hhalf | hpart
  · linarith
  · exact hpart

/-- With two digits less, rounding counts as five. -/
theorem near_roundUnits_small (hden : 0 < den) (h : (2 : ℚ) ^ 50 ≤ (num : ℚ) / den) :
    Near 5 ((num : ℚ) / den) (roundUnits num den) := by
  apply Near.of_abs_sub_le (show (0 : ℚ) ≤ 1 / 2 ^ 51 by positivity) (by norm_num [kept])
    (by positivity)
  rcases abs_roundUnits_sub_le num hden with hhalf | hpart
  · linarith
  · linarith

end Units

/-! ## Bits of rounded numbers -/

/-- The sign and the other bits of a number, and the fields of the latter. -/
theorem shape_ofSign {negative : Bool} {magnitude : ℕ} (h : magnitude ≤ infinityBits) :
    (ofSign negative magnitude).shape =
      if magnitude / significands = 2047 then .infinite negative
      else if magnitude / significands = 0 then .finite negative (magnitude % significands) 0
      else .finite negative (significands + magnitude % significands)
        (magnitude / significands - 1) := by
  have hbits : (ofSign negative magnitude).bits.toNat =
      if negative then signBit + magnitude else magnitude := by
    unfold infinityBits at h
    rw [ofSign, UInt64.toNat_ofNat']
    unfold signBit
    split <;> omega
  unfold infinityBits at h
  unfold shape
  rw [hbits]
  unfold signBit significands
  cases negative with
  | false =>
      have hbiased : magnitude / 4503599627370496 % 2048 = magnitude / 4503599627370496 := by omega
      have hsign : ¬ 9223372036854775808 ≤ magnitude := by omega
      simp only [hbiased, hsign, Bool.false_eq_true, if_false, decide_false]
      split
      · rw [if_pos (by omega)]
      · rfl
  | true =>
      have hbiased : (9223372036854775808 + magnitude) / 4503599627370496 % 2048 =
          magnitude / 4503599627370496 := by omega
      have hfraction : (9223372036854775808 + magnitude) % 4503599627370496 =
          magnitude % 4503599627370496 := by omega
      have hsign : 9223372036854775808 ≤ 9223372036854775808 + magnitude := by omega
      simp only [hbiased, hfraction, hsign, if_true, decide_true]
      split
      · rw [if_pos (by omega)]
      · rfl

/-- The shape of infinity. -/
theorem shape_infinity (negative : Bool) : (infinity negative).shape = .infinite negative := by
  cases negative <;> decide

/-- From this power of two on, numbers of units are infinite. -/
def topExponent : ℕ := 2098

/-- The carry of a significand goes into the exponent. -/
theorem shape_ofSign_carry (negative : Bool) {e : ℕ} (he : e ≤ 2044) :
    (ofSign negative (e * significands + 2 ^ 53)).shape =
      .finite negative significands (e + 1) := by
  have hmagnitude : e * significands + 2 ^ 53 = (e + 2) * significands := by
    unfold significands
    omega
  have hquotient : (e + 2) * significands / significands = e + 2 :=
    Nat.mul_div_cancel _ (by decide)
  rw [hmagnitude, shape_ofSign (by unfold significands infinityBits; omega), hquotient,
    Nat.mul_mod_left, if_neg (by omega), if_neg (by omega)]
  rfl

/-- The bits of a number whose significand has 53 digits. -/
theorem shape_ofSign_significand (negative : Bool) {m e : ℕ} (hlow : 2 ^ 52 ≤ m) (hhigh : m < 2 ^ 53)
    (he : e ≤ 2045) :
    (ofSign negative (e * significands + m)).shape = .finite negative m e := by
  have hquotient : (e * significands + m) / significands = e + 1 := by
    unfold significands
    omega
  have hrest : significands + (e * significands + m) % significands = m := by
    unfold significands
    omega
  rw [shape_ofSign (by unfold significands infinityBits; omega), hquotient, hrest,
    if_neg (by omega), if_neg (by omega)]
  rfl

/-- A number whose significand has 53 digits, or a carry, is finite below the top and
infinite from there on. -/
theorem shape_ofSign_normal (negative : Bool) {m e : ℕ} (hlow : 2 ^ 52 ≤ m) (hhigh : m ≤ 2 ^ 53) :
    (m * 2 ^ e < 2 ^ topExponent ∧ ∃ n f,
        (ofSign negative (min (e * significands + m) infinityBits)).shape = .finite negative n f ∧
          n * 2 ^ f = m * 2 ^ e) ∨
      (2 ^ topExponent ≤ m * 2 ^ e ∧
        (ofSign negative (min (e * significands + m) infinityBits)).shape =
          .infinite negative) := by
  have hpow : ∀ {a b : ℕ}, a ≤ b → 2 ^ a ≤ 2 ^ b := fun h => Nat.pow_le_pow_right (by norm_num) h
  have hinfinite : infinityBits ≤ e * significands + m →
      (ofSign negative (min (e * significands + m) infinityBits)).shape = .infinite negative := by
    intro hlarge
    rw [min_eq_right hlarge]
    exact shape_infinity negative
  have hsignificands : significands = 2 ^ 52 := rfl
  by_cases hcarry : m = 2 ^ 53
  · subst hcarry
    rw [← pow_add]
    by_cases he : e ≤ 2044
    · have hexponent : 52 + (e + 1) = 53 + e := by omega
      refine Or.inl ⟨Nat.pow_lt_pow_right (by norm_num) (by unfold topExponent; omega),
        significands, e + 1, ?_, ?_⟩
      · rw [min_eq_left (by unfold significands infinityBits; omega)]
        exact shape_ofSign_carry negative he
      · rw [hsignificands, ← pow_add, hexponent]
    · exact Or.inr ⟨hpow (by unfold topExponent; omega),
        hinfinite (by unfold significands infinityBits; omega)⟩
  · by_cases he : e ≤ 2045
    · refine Or.inl ⟨?_, m, e, ?_, rfl⟩
      · calc m * 2 ^ e < 2 ^ 53 * 2 ^ e :=
              Nat.mul_lt_mul_of_pos_right (by omega) (by positivity)
          _ = 2 ^ (53 + e) := (pow_add _ _ _).symm
          _ ≤ 2 ^ topExponent := hpow (by unfold topExponent; omega)
      · rw [min_eq_left (by unfold significands infinityBits; omega)]
        exact shape_ofSign_significand negative hlow (by omega) he
    · refine Or.inr ⟨?_, hinfinite (by unfold significands infinityBits; omega)⟩
      calc 2 ^ topExponent ≤ 2 ^ (52 + e) := hpow (by unfold topExponent; omega)
        _ = 2 ^ 52 * 2 ^ e := pow_add _ _ _
        _ ≤ m * 2 ^ e := Nat.mul_le_mul_right _ hlow

/-- A rounded quotient is the number of its units, if they lie below the top, and
infinity otherwise. -/
theorem shape_ofUnits (negative : Bool) (num den : ℕ) :
    (roundUnits num den < 2 ^ topExponent ∧ ∃ m e,
        (ofUnits negative num den).shape = .finite negative m e ∧ m * 2 ^ e = roundUnits num den) ∨
      (2 ^ topExponent ≤ roundUnits num den ∧
        (ofUnits negative num den).shape = .infinite negative) := by
  rw [ofUnits_eq, roundUnits]
  by_cases hnormal : 2 ^ 52 ≤ unitSignificand num den
  · exact shape_ofSign_normal negative hnormal unitSignificand_le
  · have hexponent : unitExponent num den = 0 := by
      by_contra hne
      exact hnormal (le_unitSignificand (Nat.pos_of_ne_zero hne)).1
    have hsmall := not_le.mp hnormal
    have hmin : min (unitExponent num den * significands + unitSignificand num den) infinityBits =
        unitSignificand num den := by
      rw [hexponent]
      unfold infinityBits
      omega
    have hquotient : unitSignificand num den / significands = 0 := Nat.div_eq_of_lt hsmall
    have hrest : unitSignificand num den % significands = unitSignificand num den :=
      Nat.mod_eq_of_lt hsmall
    refine Or.inl ⟨?_, unitSignificand num den, 0, ?_, by rw [hexponent]⟩
    · rw [hexponent, pow_zero, mul_one]
      exact hsmall.trans (Nat.pow_lt_pow_right (by norm_num) (by decide))
    · rw [hmin, shape_ofSign (by unfold infinityBits; omega), hquotient, hrest,
        if_neg (by norm_num), if_pos rfl]

/-! ## Places -/

/-- The number with a significand and an exponent. -/
def amount (significand exponent : ℕ) : ℚ :=
  (significand * 2 ^ exponent : ℕ) / unitsPerOne

/-- Two to the power of 1024, above which there is no finite number. -/
def top : ℚ := 2 ^ topExponent / unitsPerOne

/-- The smallest positive number is the 1074th power of one half. -/
theorem unitsPerOne_eq_pow : unitsPerOne = 2 ^ 1074 := by
  unfold unitsPerOne
  generalize 1074 = n
  exact Nat.pow_eq

theorem unitsPerOne_pos : (0 : ℚ) < unitsPerOne := by
  rw [unitsPerOne_eq_pow]
  positivity

/-- One is far from the smallest numbers, so that its neighbourhood has full
precision. -/
theorem two_pow_le_unitsPerOne : (2 : ℚ) ^ 53 ≤ unitsPerOne := by
  rw [unitsPerOne_eq_pow, Nat.cast_pow, Nat.cast_ofNat]
  exact pow_le_pow_right₀ (by norm_num) (by norm_num)

/-- The top in units. -/
theorem unitsPerOne_eq : (unitsPerOne : ℚ) = 2 ^ 50 * top := by
  have h : unitsPerOne * unitsPerOne = 2 ^ 50 * 2 ^ topExponent := by
    rw [unitsPerOne_eq_pow, topExponent, ← pow_add, ← pow_add]
  rw [top, mul_div_assoc', eq_div_iff unitsPerOne_pos.ne']
  exact_mod_cast h

/-- The top, by the powers of ten that follow it. -/
theorem top_eq : top = 16 * 1024 ^ 102 := by
  have hsixteen : 16 = 2 ^ 4 := by norm_num
  have hthousand : 1024 = 2 ^ 10 := by norm_num
  have h : 2 ^ topExponent = 16 * 1024 ^ 102 * unitsPerOne := by
    rw [unitsPerOne_eq_pow, topExponent, hsixteen, hthousand, ← pow_mul, ← pow_add, ← pow_add]
  rw [top, div_eq_iff unitsPerOne_pos.ne']
  exact_mod_cast h

/-- The 308th power of ten lies below the top, with room for rounding, -/
theorem ten_pow_lt_top : (10 : ℚ) ^ 308 < 3 / 4 * top := by
  have hten : (10 : ℚ) ^ 308 = 10 ^ 2 * (10 ^ 3) ^ 102 := by rw [← pow_mul, ← pow_add]
  rw [top_eq, hten]
  norm_num

/-- and the 309th one lies beyond it. -/
theorem top_le_ten_pow : top ≤ 3 / 4 * (10 : ℚ) ^ 309 := by
  have hten : (10 : ℚ) ^ 309 = 10 ^ 3 * (10 ^ 3) ^ 102 := by rw [← pow_mul, ← pow_add]
  rw [top_eq, hten]
  norm_num

theorem amount_nonneg (m e : ℕ) : 0 ≤ amount m e :=
  div_nonneg (Nat.cast_nonneg _) unitsPerOne_pos.le

/-- The number below zero if the sign is negative. -/
def signed (negative : Bool) (q : ℚ) : ℚ :=
  if negative then -q else q

@[simp]
theorem signed_false (q : ℚ) : signed false q = q := rfl

@[simp]
theorem signed_true (q : ℚ) : signed true q = -q := rfl

@[simp]
theorem signed_zero (negative : Bool) : signed negative 0 = 0 := by
  cases negative <;> simp

/-- Where a number lies among the rational numbers; infinity lies above all finite
numbers, and what is no number lies nowhere. -/
def place? (x : Binary64) : Option ℚ :=
  match x.shape with
  | .nan => none
  | .infinite negative => some (signed negative top)
  | .finite negative m e => some (signed negative (amount m e))

/-- A finite number has a significand of 53 digits at most and a bounded exponent. -/
theorem lt_of_shape_eq_finite {x : Binary64} {negative : Bool} {m e : ℕ}
    (h : x.shape = .finite negative m e) : m < 2 ^ 53 ∧ e ≤ 2045 := by
  unfold shape at h
  have hfraction : x.bits.toNat % significands < 2 ^ 52 := Nat.mod_lt _ (by decide)
  have hbiased : x.bits.toNat / significands % 2048 < 2048 := Nat.mod_lt _ (by decide)
  simp only at h
  split at h
  · split at h <;> cases h
  · split at h
    · cases h
      omega
    · cases h
      unfold significands at *
      omega

/-- Finite numbers lie below the top. -/
theorem amount_lt_top {x : Binary64} {negative : Bool} {m e : ℕ}
    (h : x.shape = .finite negative m e) : amount m e < top := by
  obtain ⟨hm, he⟩ := lt_of_shape_eq_finite h
  have hunits : m * 2 ^ e < 2 ^ topExponent := by
    calc m * 2 ^ e < 2 ^ 53 * 2 ^ e := Nat.mul_lt_mul_of_pos_right hm (by positivity)
      _ = 2 ^ (53 + e) := (pow_add _ _ _).symm
      _ ≤ 2 ^ topExponent := Nat.pow_le_pow_right (by norm_num) (by unfold topExponent; omega)
  rw [amount, top, div_lt_div_iff_of_pos_right unitsPerOne_pos]
  exact_mod_cast hunits

/-- The sign and the amount of a number, in units. -/
theorem signed_amount (negative : Bool) (m e : ℕ) :
    signed negative (amount m e) = (signedUnits negative m e : ℚ) / unitsPerOne := by
  unfold signedUnits amount
  cases negative with
  | false =>
      rw [signed_false, if_neg Bool.false_ne_true, Int.cast_natCast]
      rfl
  | true =>
      rw [signed_true, ← neg_div, if_pos rfl, Int.cast_neg, Int.cast_natCast]
      rfl

/-- Whole numbers of units are ordered like the numbers. -/
theorem compare_units (i j : ℤ) :
    compare i j = compare ((i : ℚ) / unitsPerOne) ((j : ℚ) / unitsPerOne) := by
  have hmono : StrictMono fun i : ℤ => (i : ℚ) / unitsPerOne := fun i j h => by
    rw [div_lt_div_iff_of_pos_right unitsPerOne_pos]
    exact_mod_cast h
  rw [← cmp_eq_compare, ← cmp_eq_compare]
  exact (hmono.cmp_map_eq i j).symm

theorem top_pos : 0 < top := by
  rw [top_eq]
  positivity

/-- A signed amount below the top lies between both infinities. -/
theorem signed_lt_top (negative : Bool) {q : ℚ} (hpos : 0 ≤ q) (h : q < top) :
    -top < signed negative q ∧ signed negative q < top := by
  unfold signed
  split <;> constructor <;> linarith

/-- Zero has either sign. -/
theorem shape_zero (negative : Bool) : (ofSign negative 0).shape = .finite negative 0 0 := by
  cases negative <;> decide

@[simp]
theorem amount_zero (e : ℕ) : amount 0 e = 0 := by
  rw [amount, zero_mul, Nat.cast_zero, zero_div]

/-- Numbers are compared by where they lie. -/
theorem compare?_eq (x y : Binary64) :
    x.compare? y = x.place?.bind fun p => y.place?.map fun q => compare p q := by
  have htop := top_pos
  unfold compare? place?
  cases hx : x.shape with
  | nan => rfl
  | infinite s =>
      cases hy : y.shape with
      | nan => rfl
      | infinite t =>
          have hlt : -top < top := by linarith
          cases s <;> cases t
          · simp
          · simp [compare_gt_iff_gt.mpr hlt]
          · simp [compare_lt_iff_lt.mpr hlt]
          · simp
      | finite t n f =>
          obtain ⟨hlow, hhigh⟩ := signed_lt_top t (amount_nonneg n f) (amount_lt_top hy)
          cases s
          · simp [compare_gt_iff_gt.mpr hhigh]
          · simp [compare_lt_iff_lt.mpr hlow]
  | finite s m e =>
      cases hy : y.shape with
      | nan => rfl
      | infinite t =>
          obtain ⟨hlow, hhigh⟩ := signed_lt_top s (amount_nonneg m e) (amount_lt_top hx)
          cases t
          · simp [compare_lt_iff_lt.mpr hhigh]
          · simp [compare_gt_iff_gt.mpr hlow]
      | finite t n f =>
          simp only [Option.bind_some, Option.map_some, signed_amount]
          rw [compare_units]

/-! ## Approximations -/

/-- Whether a number is what is left of a positive number under a sign, after a number
of roundings. -/
def Approximates (k : ℕ) (negative : Bool) (q : ℚ) (x : Binary64) : Prop :=
  (∃ m e, x.shape = .finite negative m e ∧ Near k q (amount m e)) ∨
    (x.shape = .infinite negative ∧ top * kept ^ k ≤ q)

section Approximates

variable {i j k : ℕ} {s t : Bool} {p q : ℚ} {x y : Binary64}

/-- What is near a number approximates it by the roundings of both. -/
theorem Approximates.of_near (h : Near i p q) (hx : Approximates j s q x) :
    Approximates (i + j) s p x := by
  rcases hx with ⟨m, e, hshape, hnear⟩ | ⟨hshape, hlarge⟩
  · exact Or.inl ⟨m, e, hshape, h.trans hnear⟩
  · refine Or.inr ⟨hshape, ?_⟩
    calc top * kept ^ (i + j) = top * kept ^ j * kept ^ i := by rw [pow_add]; ring
      _ ≤ q * kept ^ i := mul_le_mul_of_nonneg_right hlarge (kept_pow_pos i).le
      _ ≤ p := h.2

/-- More roundings allow for more distance. -/
theorem Approximates.mono (h : Approximates i s p x) (hp : 0 ≤ p) (hij : i ≤ j) :
    Approximates j s p x := by
  rcases h with ⟨m, e, hshape, hnear⟩ | ⟨hshape, hlarge⟩
  · exact Or.inl ⟨m, e, hshape, hnear.mono hp (amount_nonneg m e) hij⟩
  · exact Or.inr ⟨hshape,
      (mul_le_mul_of_nonneg_left (kept_pow_anti hij) top_pos.le).trans hlarge⟩

/-- A number is finite if the exact one lies far enough below the top. -/
theorem Approximates.finite (h : Approximates i s p x) (hp : p < top * kept ^ i) :
    ∃ m e, x.shape = .finite s m e ∧ Near i p (amount m e) := by
  rcases h with hfinite | ⟨-, hlarge⟩
  · exact hfinite
  · exact absurd hlarge (not_le.mpr hp)

/-- A number is infinite if the exact one lies far enough above the top. -/
theorem Approximates.infinite (h : Approximates i s p x) (hp : top ≤ p * kept ^ i) :
    x.shape = .infinite s := by
  rcases h with ⟨m, e, hshape, hnear⟩ | ⟨hshape, -⟩
  · exact absurd (hp.trans hnear.1) (not_le.mpr (amount_lt_top hshape))
  · exact hshape

/-- A rounded quotient approximates the quotient. -/
theorem approximates_of_near_roundUnits {num den : ℕ} (s : Bool)
    (h : Near k ((num : ℚ) / den) (roundUnits num den)) :
    Approximates k s ((num : ℚ) / den / unitsPerOne) (ofUnits s num den) := by
  have hscaled := h.div_const unitsPerOne_pos
  rcases shape_ofUnits s num den with ⟨-, m, e, hshape, hunits⟩ | ⟨hlarge, hshape⟩
  · refine Or.inl ⟨m, e, hshape, ?_⟩
    rw [amount, hunits]
    exact hscaled
  · refine Or.inr ⟨hshape, ?_⟩
    have htop : top ≤ (roundUnits num den : ℚ) / unitsPerOne := by
      rw [top, div_le_div_iff_of_pos_right unitsPerOne_pos]
      exact_mod_cast hlarge
    exact (mul_le_mul_of_nonneg_right htop (kept_pow_pos k).le).trans hscaled.2

/-- A rounded quotient approximates it. -/
theorem approximates_ofUnits {num den : ℕ} (s : Bool) (hden : 0 < den)
    (h : (2 : ℚ) ^ 52 ≤ (num : ℚ) / den) :
    Approximates 1 s ((num : ℚ) / den / unitsPerOne) (ofUnits s num den) :=
  approximates_of_near_roundUnits s (near_roundUnits hden h)

/-- A rounded quotient approximates it, though not as well if it is small. -/
theorem approximates_ofUnits_small {num den : ℕ} (s : Bool) (hden : 0 < den)
    (h : (2 : ℚ) ^ 50 ≤ (num : ℚ) / den) :
    Approximates 5 s ((num : ℚ) / den / unitsPerOne) (ofUnits s num den) :=
  approximates_of_near_roundUnits s (near_roundUnits_small hden h)

/-- After a bounded number of roundings half of a number is left. -/
theorem half_le_kept_pow (h : k ≤ 2 ^ 52) : 1 / 2 ≤ kept ^ k := by
  have hk : (k : ℚ) ≤ 2 ^ 52 := by exact_mod_cast h
  have hkept := one_sub_le_kept_pow k
  linarith

/-- A positive amount has a significand. -/
theorem ne_zero_of_amount_pos {m e : ℕ} (h : 0 < amount m e) : m ≠ 0 := by
  rintro rfl
  simp at h

/-- What is too large for the top stays so under more roundings and larger factors. -/
theorem top_mul_kept_pow_le {k l : ℕ} (hl : l ≤ k) (hp : 0 < p) (hq : 1 ≤ q)
    (hlarge : top * kept ^ l ≤ p) : top * kept ^ k ≤ p * q :=
  calc top * kept ^ k ≤ top * kept ^ l := mul_le_mul_of_nonneg_left (kept_pow_anti hl) top_pos.le
    _ ≤ p := hlarge
    _ ≤ p * q := le_mul_of_one_le_right hp.le hq

/-- The product of finite numbers is rounded once more. -/
theorem approximates_mul_finite {m e n f : ℕ} (hx : x.shape = .finite s m e)
    (hy : y.shape = .finite t n f) (hnear : Near i p (amount m e)) (hnear' : Near j q (amount n f))
    (hp : 1 ≤ p) (hq : 1 ≤ q) (hij : i + j ≤ 2 ^ 52) :
    Approximates (i + j + 1) (s != t) (p * q) (x.mul y) := by
  have hproduct := hnear.mul hnear' (by linarith) (by linarith)
  have hunits : ((m * n * Nat.pow 2 (e + f) : ℕ) : ℚ) / unitsPerOne =
      amount m e * amount n f * unitsPerOne := by
    have hpow : Nat.pow 2 (e + f) = 2 ^ e * 2 ^ f := pow_add 2 e f
    have hone := unitsPerOne_pos.ne'
    rw [hpow, amount, amount]
    push_cast
    field_simp
  have hlarge : (2 : ℚ) ^ 52 ≤ ((m * n * Nat.pow 2 (e + f) : ℕ) : ℚ) / unitsPerOne := by
    rw [hunits]
    calc (2 : ℚ) ^ 52 = 1 / 2 * 2 ^ 53 := by norm_num
      _ ≤ amount m e * amount n f * unitsPerOne := by
        refine mul_le_mul ?_ two_pow_le_unitsPerOne (by norm_num)
          (mul_nonneg (amount_nonneg m e) (amount_nonneg n f))
        calc (1 : ℚ) / 2 ≤ kept ^ (i + j) := half_le_kept_pow hij
          _ ≤ p * q * kept ^ (i + j) :=
            le_mul_of_one_le_left (kept_pow_pos _).le (one_le_mul_of_one_le_of_one_le hp hq)
          _ ≤ amount m e * amount n f := hproduct.1
  have hround := approximates_ofUnits (s != t) (Nat.cast_pos.mp unitsPerOne_pos) hlarge
  rw [hunits, mul_div_assoc, div_self unitsPerOne_pos.ne', mul_one] at hround
  unfold mul
  rw [hx, hy]
  exact hround.of_near hproduct

/-- The product of numbers from one on approximates their product. -/
theorem approximates_mul (hx : Approximates i s p x) (hy : Approximates j t q y) (hp : 1 ≤ p)
    (hq : 1 ≤ q) (hij : i + j ≤ 2 ^ 52) : Approximates (i + j + 1) (s != t) (p * q) (x.mul y) := by
  have hpositive : (0 : ℚ) < p ∧ (0 : ℚ) < q := ⟨by linarith, by linarith⟩
  rcases hx with ⟨m, e, hx, hnear⟩ | ⟨hx, hlarge⟩ <;> rcases hy with ⟨n, f, hy, hnear'⟩ | ⟨hy, hlarge'⟩
  · exact approximates_mul_finite hx hy hnear hnear' hp hq hij
  · have hm := ne_zero_of_amount_pos (hnear.pos hpositive.1)
    unfold mul
    rw [hx, hy, mul_comm p q]
    simp only [if_neg hm]
    exact Or.inr ⟨shape_infinity _, top_mul_kept_pow_le (by omega) hpositive.2 hp hlarge'⟩
  · have hn := ne_zero_of_amount_pos (hnear'.pos hpositive.2)
    unfold mul
    rw [hx, hy]
    simp only [if_neg hn]
    exact Or.inr ⟨shape_infinity _, top_mul_kept_pow_le (by omega) hpositive.1 hq hlarge⟩
  · unfold mul
    rw [hx, hy]
    exact Or.inr ⟨shape_infinity _, top_mul_kept_pow_le (by omega) hpositive.1 hq hlarge⟩

/-- After half as many roundings three quarters of a number are left. -/
theorem three_quarters_le_kept_pow (h : k ≤ 2 ^ 51) : 3 / 4 ≤ kept ^ k := by
  have hk : (k : ℚ) ≤ 2 ^ 51 := by exact_mod_cast h
  have hkept := one_sub_le_kept_pow k
  linarith

/-- The quotient of finite numbers approximates their quotient, if it is not too
small. -/
theorem approximates_div {m e n f : ℕ} (hx : x.shape = .finite s m e)
    (hy : y.shape = .finite t n f) (hnear : Near i p (amount m e)) (hnear' : Near j q (amount n f))
    (hp : 0 < p) (hq : 0 < q) (hij : i + j ≤ 2 ^ 51) (hlow : 1 ≤ p / q * (3 / 4 * top)) :
    Approximates (i + j + 5) (s != t) (p / q) (x.div y) := by
  have hquotient := hnear.div hnear' hp hq
  have hn := ne_zero_of_amount_pos (hnear'.pos hq)
  have hden : 0 < n * Nat.pow 2 f := Nat.mul_pos (Nat.pos_of_ne_zero hn) (Nat.two_pow_pos f)
  have hunits : ((m * Nat.pow 2 e * unitsPerOne : ℕ) : ℚ) / ((n * Nat.pow 2 f : ℕ) : ℚ) =
      amount m e / amount n f * unitsPerOne := by
    have hpow : ∀ a : ℕ, Nat.pow 2 a = 2 ^ a := fun _ => rfl
    have hone := unitsPerOne_pos.ne'
    have hnQ : (n : ℚ) ≠ 0 := by exact_mod_cast hn
    rw [hpow, hpow, amount, amount]
    push_cast
    field_simp
  have hlarge : (2 : ℚ) ^ 50 ≤
      ((m * Nat.pow 2 e * unitsPerOne : ℕ) : ℚ) / ((n * Nat.pow 2 f : ℕ) : ℚ) := by
    rw [hunits, unitsPerOne_eq]
    have hratio : 1 ≤ amount m e / amount n f * top := by
      calc (1 : ℚ) ≤ p / q * (3 / 4 * top) := hlow
        _ ≤ p / q * (kept ^ (i + j) * top) := by
          refine mul_le_mul_of_nonneg_left ?_ (div_pos hp hq).le
          exact mul_le_mul_of_nonneg_right (three_quarters_le_kept_pow hij) top_pos.le
        _ = p / q * kept ^ (i + j) * top := (mul_assoc _ _ _).symm
        _ ≤ amount m e / amount n f * top :=
          mul_le_mul_of_nonneg_right hquotient.1 top_pos.le
    linarith
  have hround := approximates_ofUnits_small (s != t) hden hlarge
  rw [hunits, mul_div_assoc, div_self unitsPerOne_pos.ne', mul_one] at hround
  unfold div
  rw [hx, hy]
  simp only [if_neg hn]
  exact hround.of_near hquotient

/-! ## Powers of ten -/

/-- Repeated squaring rounds as often as the exponent says. -/
theorem approximates_powerLoop {acc base : Binary64} (hacc : Approximates i false p acc)
    (hbase : Approximates j false q base) (hp : 1 ≤ p) (hq : 1 ≤ q)
    (hk : i + k * (j + 1) ≤ 2 ^ 52) :
    Approximates (i + k * (j + 1)) false (p * q ^ k) (powerLoop acc base k) := by
  induction k using Nat.strong_induction_on generalizing acc base i j p q with
  | _ k ih =>
      have hsplit := Nat.div_add_mod k 2
      -- The last binary digit of the exponent decides whether the base goes into the
      -- result; the other digits are the exponent of the squared base.
      have hexponents : i + k % 2 * (j + 1) + k / 2 * (j + j + 1 + 1) = i + k * (j + 1) := by
        calc i + k % 2 * (j + 1) + k / 2 * (j + j + 1 + 1)
            = i + (2 * (k / 2) + k % 2) * (j + 1) := by ring
          _ = i + k * (j + 1) := by rw [hsplit]
      have hpowers : p * q ^ (k % 2) * (q * q) ^ (k / 2) = p * q ^ k := by
        rw [← pow_two, ← pow_mul, mul_assoc, ← pow_add, add_comm, hsplit]
      have hstep : Approximates (i + k % 2 * (j + 1)) false (p * q ^ (k % 2))
          (if k % 2 = 1 then acc.mul base else acc) := by
        rcases Nat.mod_two_eq_zero_or_one k with heven | hodd
        · rw [heven, if_neg (by norm_num), zero_mul, add_zero, pow_zero, mul_one]
          exact hacc
        · rw [hodd] at hexponents ⊢
          rw [if_pos rfl, one_mul, pow_one]
          exact approximates_mul hacc hbase hp hq (by omega)
      rw [powerLoop]
      by_cases hlast : k / 2 = 0
      · rw [if_pos hlast]
        rw [hlast, zero_mul, add_zero] at hexponents
        rw [hlast, pow_zero, mul_one] at hpowers
        rw [← hexponents, ← hpowers]
        exact hstep
      · rw [if_neg hlast, ← hexponents, ← hpowers]
        have hlarge : 1 * (j + j + 1 + 1) ≤ k / 2 * (j + j + 1 + 1) :=
          Nat.mul_le_mul_right _ (Nat.pos_of_ne_zero hlast)
        exact ih (k / 2) (by omega) hstep (approximates_mul hbase hbase hq hq (by omega))
          (one_le_mul_of_one_le_of_one_le hp (one_le_pow₀ hq))
          (one_le_mul_of_one_le_of_one_le hq hq) (by omega)

end Approximates

/-- One and ten are numbers without a rounding. -/
theorem shape_one : (ofInt 1).shape = .finite false (2 ^ 52) 1022 := by
  decide +kernel

/-- Ten as a floating-point number. -/
theorem shape_ten : (ofInt 10).shape = .finite false (10 * 2 ^ 49) 1025 := by
  decide +kernel

/-- One is exact, -/
theorem near_one : Near 0 1 (amount (2 ^ 52) 1022) := by
  have h : 2 ^ 52 * 2 ^ 1022 = unitsPerOne := by rw [unitsPerOne_eq_pow, ← pow_add]
  rw [amount, h, div_self unitsPerOne_pos.ne']
  exact Near.refl 1

/-- and so is ten. -/
theorem near_ten : Near 0 10 (amount (10 * 2 ^ 49) 1025) := by
  have h : 10 * 2 ^ 49 * 2 ^ 1025 = 10 * unitsPerOne := by
    rw [unitsPerOne_eq_pow, mul_assoc, ← pow_add]
  rw [amount, h, Nat.cast_mul, mul_div_assoc, div_self unitsPerOne_pos.ne', mul_one]
  exact Near.refl 10

/-- A power of ten is rounded as often as its exponent says. -/
theorem approximates_ten_pow {n : ℕ} (hn : n ≤ 2 ^ 52) :
    Approximates n false (10 ^ n) (powerLoop (ofInt 1) (ofInt 10) n) := by
  have hone : Approximates 0 false 1 (ofInt 1) := Or.inl ⟨_, _, shape_one, near_one⟩
  have hten : Approximates 0 false 10 (ofInt 10) := Or.inl ⟨_, _, shape_ten, near_ten⟩
  have hpower : Approximates (0 + n * (0 + 1)) false (1 * 10 ^ n)
      (powerLoop (ofInt 1) (ofInt 10) n) :=
    approximates_powerLoop hone hten le_rfl (by norm_num) (by omega)
  rwa [zero_add, zero_add, mul_one, one_mul] at hpower

/-- The powers of ten with at most 308 zeros are finite. -/
theorem exists_powerLoop_finite {n : ℕ} (hn : n ≤ 308) :
    ∃ m e, (powerLoop (ofInt 1) (ofInt 10) n).shape = .finite false m e ∧
      Near 308 (10 ^ n) (amount m e) := by
  have hsmall : (10 : ℚ) ^ n < top * kept ^ n := by
    calc (10 : ℚ) ^ n ≤ 10 ^ 308 := pow_le_pow_right₀ (by norm_num) hn
      _ < 3 / 4 * top := ten_pow_lt_top
      _ ≤ kept ^ n * top :=
        mul_le_mul_of_nonneg_right (three_quarters_le_kept_pow (by omega)) top_pos.le
      _ = top * kept ^ n := mul_comm _ _
  obtain ⟨m, e, hshape, hnear⟩ := (approximates_ten_pow (by omega)).finite hsmall
  exact ⟨m, e, hshape, hnear.mono (by positivity) (amount_nonneg m e) hn⟩

/-- The powers of ten with more zeros are infinite. -/
theorem shape_powerLoop_infinite {n : ℕ} (hn : 308 < n) (hbound : n ≤ 2 ^ 52) :
    (powerLoop (ofInt 1) (ofInt 10) n).shape = .infinite false := by
  apply (approximates_ten_pow hbound).infinite
  obtain ⟨rest, rfl⟩ := Nat.exists_eq_add_of_le hn
  have hten : (1 : ℚ) ≤ 10 * kept := by norm_num [kept]
  have hpos : (0 : ℚ) < 10 ^ 309 := pow_pos (by norm_num) _
  have hkept : 3 / 4 ≤ kept ^ 309 := three_quarters_le_kept_pow (by norm_num)
  calc top ≤ 3 / 4 * 10 ^ 309 := top_le_ten_pow
    _ ≤ kept ^ 309 * 10 ^ 309 := mul_le_mul_of_nonneg_right hkept hpos.le
    _ ≤ kept ^ 309 * 10 ^ 309 * (10 * kept) ^ rest :=
      le_mul_of_one_le_right (mul_nonneg (kept_pow_pos _).le hpos.le) (one_le_pow₀ hten)
    _ = 10 ^ (Nat.succ 308 + rest) * kept ^ (Nat.succ 308 + rest) := by
      rw [mul_pow, pow_add, pow_add, mul_comm (kept ^ 309), mul_mul_mul_comm]

/-- A power of ten with at most 308 places before or behind the point. -/
theorem exists_powerOfTen_finite {n : ℤ} (hn : n.natAbs ≤ 308) :
    ∃ m e, (powerOfTen n).shape = .finite false m e ∧ Near 313 ((10 : ℚ) ^ n) (amount m e) := by
  obtain ⟨m, e, hshape, hnear⟩ := exists_powerLoop_finite hn
  unfold powerOfTen
  by_cases hneg : n < 0
  · have hsmall : (10 : ℚ) ^ n.natAbs ≤ 3 / 4 * top :=
      (pow_le_pow_right₀ (by norm_num) hn).trans ten_pow_lt_top.le
    have hpos : (0 : ℚ) < 10 ^ n.natAbs := by positivity
    have hdiv := approximates_div shape_one hshape near_one hnear one_pos hpos
      (by norm_num) (by rw [one_div, ← div_eq_inv_mul, one_le_div hpos]; exact hsmall)
    have hbelow : 1 / (10 : ℚ) ^ n.natAbs < top * kept ^ (0 + 308 + 5) := by
      have hpart : 1 / (10 : ℚ) ^ n.natAbs ≤ 1 := by
        rw [div_le_one hpos]
        exact one_le_pow₀ (by norm_num)
      have hten : (1 : ℚ) ≤ 10 ^ 308 := one_le_pow₀ (by norm_num)
      calc 1 / (10 : ℚ) ^ n.natAbs ≤ 10 ^ 308 := hpart.trans hten
        _ < 3 / 4 * top := ten_pow_lt_top
        _ ≤ kept ^ (0 + 308 + 5) * top :=
          mul_le_mul_of_nonneg_right (three_quarters_le_kept_pow (by norm_num)) top_pos.le
        _ = top * kept ^ (0 + 308 + 5) := mul_comm _ _
    have hpower : (10 : ℚ) ^ n = 1 / 10 ^ n.natAbs := by
      have habs : n = -(n.natAbs : ℤ) := by omega
      rw [one_div, ← zpow_natCast, ← zpow_neg, ← habs]
    rw [if_pos hneg, hpower]
    exact hdiv.finite hbelow
  · have hpower : (10 : ℚ) ^ n = 10 ^ n.natAbs := by
      have habs : n = (n.natAbs : ℤ) := by omega
      rw [← zpow_natCast, ← habs]
    rw [if_neg hneg, hpower]
    exact ⟨m, e, hshape, hnear.mono (by positivity) (amount_nonneg m e) (by norm_num)⟩

/-- Powers of ten from the 309th on are infinite. -/
theorem shape_powerOfTen_infinite {n : ℤ} (hn : 308 < n) (hbound : n ≤ 2 ^ 52) :
    (powerOfTen n).shape = .infinite false := by
  rw [powerOfTen, if_neg (by omega)]
  exact shape_powerLoop_infinite (by omega) (by omega)

/-- The reciprocal of an infinite power is zero. -/
theorem shape_powerOfTen_zero {n : ℤ} (hn : n < -308) (hbound : -2 ^ 52 ≤ n) :
    (powerOfTen n).shape = .finite false 0 0 := by
  have hpower := @shape_powerLoop_infinite n.natAbs (by omega) (by omega)
  rw [powerOfTen, if_pos (by omega), div, shape_one, hpower]
  decide

/-- A whole number of 64 bits is rounded once. -/
theorem exists_ofInt_finite {i : ℤ} (hi : i ≠ 0) (hbound : i.natAbs ≤ 2 ^ 63) :
    ∃ m e, (ofInt i).shape = .finite (decide (i < 0)) m e ∧
      Near 1 (i.natAbs : ℚ) (amount m e) := by
  have hone : 1 ≤ i.natAbs := Int.natAbs_pos.mpr hi
  have hunits : ((i.natAbs * unitsPerOne : ℕ) : ℚ) / ((1 : ℕ) : ℚ) = i.natAbs * unitsPerOne := by
    rw [Nat.cast_one, div_one, Nat.cast_mul]
  have hlarge : (2 : ℚ) ^ 52 ≤ ((i.natAbs * unitsPerOne : ℕ) : ℚ) / ((1 : ℕ) : ℚ) := by
    have honeQ : (1 : ℚ) ≤ i.natAbs := by exact_mod_cast hone
    rw [hunits]
    calc (2 : ℚ) ^ 52 ≤ 1 * unitsPerOne := by
          rw [one_mul]
          exact le_trans (by norm_num) two_pow_le_unitsPerOne
      _ ≤ i.natAbs * unitsPerOne := mul_le_mul_of_nonneg_right honeQ unitsPerOne_pos.le
  have hround := approximates_ofUnits (decide (i < 0)) one_pos hlarge
  rw [hunits, mul_div_assoc, div_self unitsPerOne_pos.ne', mul_one] at hround
  apply hround.finite
  have hboundQ : (i.natAbs : ℚ) ≤ 2 ^ 63 := by exact_mod_cast hbound
  calc (i.natAbs : ℚ) ≤ 2 ^ 63 := hboundQ
    _ < 16 * 1024 ^ 102 * (3 / 4) := by norm_num
    _ ≤ top * kept ^ 1 := by
      rw [← top_eq]
      exact mul_le_mul_of_nonneg_left (three_quarters_le_kept_pow (by norm_num)) top_pos.le

/-- Nothing is rounded to nothing. -/
theorem place_ofUnits_zero (negative : Bool) (den : ℕ) : (ofUnits negative 0 den).place? = some 0 := by
  have hzero : roundUnits 0 den = 0 := by
    simp [roundUnits, unitSignificand, roundHalfEven]
  rcases shape_ofUnits negative 0 den with ⟨-, m, e, hshape, hunits⟩ | ⟨hlarge, -⟩
  · have hamount : amount m e = 0 := by
      rw [amount, hunits, hzero, Nat.cast_zero, zero_div]
    simp only [place?, hshape, hamount, signed_zero]
  · rw [hzero] at hlarge
    exact absurd hlarge (not_le.mpr (Nat.two_pow_pos topExponent))

end StructuredStore.Binary64
