import Mathlib.Data.Prod.Lex
import Mathlib.Order.Bounds.Basic
import StructuredStore.Config.Basic
import StructuredStore.Proofs.Time.Order

/-!
# Widths of slices

Slices of time start at the multiples of their width.  The start of the slice
that holds an instant is the last multiple that does not lie behind it, and the
slice in which it would be listed starts at the first multiple that does not lie
in front of it.

A configured precision becomes a width by way of a signed number and of a length
of time.  Precisions that no length of time can hold have no width, and those
that turn negative are taken for one second.

Main results:

- `isGreatest_floor`, `isLeast_ceil`: the start of a slice among the multiples of
  its width.
- `dividesBy_iff`: which precisions divide the time as configured.
-/

namespace StructuredStore

/-! ## Places in time -/

namespace Instant

/-- The place of an instant in time: by its second, and within the second by its
nanoseconds. -/
def place (instant : Instant) : ℤ ×ₗ ℕ :=
  toLex (instant.seconds, instant.nanos)

/-- The place at which a second starts.  The second need not be one of the
calendar. -/
def startOf (second : ℤ) : ℤ ×ₗ ℕ :=
  toLex (second, 0)

/-- Every second that has started lies at or before the instant. -/
theorem startOf_le_place_iff {second : ℤ} {instant : Instant} :
    startOf second ≤ instant.place ↔ second ≤ instant.seconds := by
  rw [startOf, place, Prod.Lex.toLex_le_toLex]
  simp only
  omega

/-- The second of an instant itself lies at or after it only if the instant is
its start. -/
theorem place_le_startOf_iff {second : ℤ} {instant : Instant} :
    instant.place ≤ startOf second ↔
      instant.seconds < second ∨ instant.seconds = second ∧ instant.nanos = 0 := by
  rw [startOf, place, Prod.Lex.toLex_le_toLex]
  simp only
  omega

end Instant

open Instant (startOf startOf_le_place_iff place_le_startOf_iff)

namespace BucketWidth

variable (width : BucketWidth)

/-! ## Starts of slices among the multiples of the width -/

theorem dvd_floor (instant : Instant) : width.seconds ∣ width.floor instant :=
  Dvd.intro_left _ rfl

theorem dvd_ceil (instant : Instant) : width.seconds ∣ width.ceil instant := by
  unfold ceil
  split
  · exact width.dvd_floor instant
  · exact Int.dvd_add (width.dvd_floor instant) (Int.dvd_refl _)

/-- A multiple of the width that does not lie behind the seconds of an instant
does not lie behind its slice. -/
theorem le_floor_of_dvd {second : ℤ} {instant : Instant} (hdvd : width.seconds ∣ second)
    (h : second ≤ instant.seconds) : second ≤ width.floor instant := by
  obtain ⟨n, rfl⟩ := hdvd
  rw [Int.mul_comm] at h ⊢
  exact Int.mul_le_mul_of_nonneg_right ((Int.le_ediv_iff_mul_le width.pos).mpr h)
    (Int.le_of_lt width.pos)

/-- Of the multiples of the width, the start of the slice that holds an instant is
the last one at or before it. -/
theorem isGreatest_floor (instant : Instant) :
    IsGreatest {second | width.seconds ∣ second ∧ startOf second ≤ instant.place}
      (width.floor instant) := by
  constructor
  · exact ⟨width.dvd_floor instant, startOf_le_place_iff.mpr (width.floor_le instant).1⟩
  · rintro second ⟨hdvd, hle⟩
    exact width.le_floor_of_dvd hdvd (startOf_le_place_iff.mp hle)

/-- Of the multiples of the width, the start of the slice in which an instant is
listed is the first one at or after it. -/
theorem isLeast_ceil (instant : Instant) :
    IsLeast {second | width.seconds ∣ second ∧ instant.place ≤ startOf second}
      (width.ceil instant) := by
  have hfloor := width.floor_le instant
  constructor
  · refine ⟨width.dvd_ceil instant, place_le_startOf_iff.mpr ?_⟩
    unfold ceil
    split <;> omega
  · rintro second ⟨hdvd, hle⟩
    rw [place_le_startOf_iff] at hle
    unfold ceil
    split
    · omega
    · -- The next multiple of the width is a whole width behind the start of the slice.
      have hstep := Int.le_of_dvd (show 0 < second - width.floor instant by omega)
        (Int.dvd_sub hdvd (width.dvd_floor instant))
      omega

/-! ## 64-bit numbers -/

/-- The numbers that lead to the start of a slice fit 64 bits. -/
theorem fits_steps (instant : Instant) :
    FitsInt64 (instant.seconds / width.seconds) ∧ FitsInt64 (width.floor instant) ∧
      FitsInt64 (width.floor instant + width.seconds) := by
  have hpos := width.pos
  have hmax := width.le_max
  have hfirst := instant.first_le
  have hlast := instant.le_last
  have hfloor := width.floor_le instant
  have hquotient := Int.natAbs_ediv_le_natAbs instant.seconds width.seconds
  unfold firstSecond at hfirst
  unfold lastSecond at hlast
  unfold maxSeconds at hmax
  unfold FitsInt64
  omega

/-! ## Configured precisions -/

/-- The signed number that a precision is taken for. -/
theorem toInt_toInt64 (precision : UInt64) :
    precision.toInt64.toInt =
      if precision.toNat < 9223372036854775808 then (precision.toNat : Int)
      else precision.toNat - 18446744073709551616 := by
  have hbits : precision.toInt64.toInt = precision.toBitVec.toInt := rfl
  have hnat : precision.toBitVec.toNat = precision.toNat := rfl
  rw [hbits, BitVec.toInt_eq_toNat_cond, hnat]
  split <;> split <;> omega

/-- A precision that a length of time can hold is the width. -/
theorem ofSeconds?_of_le {precision : UInt64} (hpos : precision ≠ 0)
    (hle : (precision.toNat : Int) ≤ maxSeconds) :
    ∃ width, ofSeconds? precision = some width ∧ width.seconds = precision.toNat := by
  have hseconds := toInt_toInt64 precision
  have hzero : precision.toNat ≠ 0 := fun h => hpos (UInt64.toNat_inj.mp h)
  unfold maxSeconds at hle
  rw [if_pos (by omega)] at hseconds
  refine ⟨⟨precision.toNat, by omega, by unfold maxSeconds; omega⟩, ?_, rfl⟩
  simp only [ofSeconds?, hseconds]
  rw [dif_neg (by unfold maxSeconds; omega)]
  simp
  omega

/-- Every other precision has no width, or that of one second. -/
theorem ofSeconds?_of_lt {precision : UInt64} {width : BucketWidth}
    (hlt : maxSeconds < (precision.toNat : Int)) (h : ofSeconds? precision = some width) :
    width.seconds = 1 := by
  have hseconds := toInt_toInt64 precision
  simp only [ofSeconds?] at h
  split at h
  · cases h
  · rename_i hfits
    cases h
    unfold maxSeconds at hlt hfits
    have hbound := precision.toNat_lt
    have hnegative : precision.toInt64.toInt ≤ 1 := by
      split at hseconds <;> omega
    exact Int.max_eq_right hnegative

/-- Whether the slices of a width start at the multiples of a number of seconds,
in the order of time, and every number on the way fits 64 bits. -/
structure DividesBy (width : BucketWidth) (precision : ℕ) : Prop where
  floor : ∀ instant, IsGreatest {second | (precision : ℤ) ∣ second ∧
    startOf second ≤ instant.place} (width.floor instant)
  ceil : ∀ instant, IsLeast {second | (precision : ℤ) ∣ second ∧
    instant.place ≤ startOf second} (width.ceil instant)
  mono : ∀ {a b : Instant}, a ≤ b →
    width.floor a ≤ width.floor b ∧ width.ceil a ≤ width.ceil b
  fits : ∀ instant : Instant, FitsInt64 (instant.seconds / width.seconds) ∧
    FitsInt64 (width.floor instant) ∧ FitsInt64 (width.floor instant + width.seconds)

/-- Every width divides the time by itself. -/
theorem dividesBy {precision : ℕ} (h : width.seconds = precision) :
    width.DividesBy precision := by
  constructor
  · rw [← h]
    exact width.isGreatest_floor
  · rw [← h]
    exact width.isLeast_ceil
  · intro a b hle
    have hseconds := (Instant.precedes_iff a b).mp hle
    exact ⟨width.floor_le_floor (by omega), width.ceil_le_ceil hle⟩
  · exact width.fits_steps

/-- A width of one second divides the time by no larger precision. -/
theorem not_dividesBy {precision : ℕ} (h : width.seconds = 1) (hlt : 1 < precision) :
    ¬ width.DividesBy precision := by
  intro hdivides
  have hdvd := (hdivides.floor (.ofInt64 1000000000)).1.1
  have hfloor : width.floor (.ofInt64 1000000000) = 1 := by
    rw [floor, h]
    decide
  rw [hfloor] at hdvd
  have hle := Int.le_of_dvd (by decide) hdvd
  omega

/-- The precisions that divide the time as configured are exactly those that a
length of time can hold. -/
theorem dividesBy_iff (config : Config) (hvalid : config.validate = .ok config) :
    (∃ width, ofSeconds? config.expiry.precisionSecs = some width ∧
      width.DividesBy config.expiry.precisionSecs.toNat) ↔
      (config.expiry.precisionSecs.toNat : ℤ) ≤ maxSeconds := by
  constructor
  · rintro ⟨width, hwidth, hdivides⟩
    by_contra hlt
    have hone := ofSeconds?_of_lt (not_le.mp hlt) hwidth
    refine not_dividesBy width hone ?_ hdivides
    unfold maxSeconds at hlt
    omega
  · intro hle
    have hpos : config.expiry.precisionSecs ≠ 0 := by
      intro hzero
      simp [Config.validate, Config.fault?, hzero] at hvalid
    obtain ⟨width, hwidth, hseconds⟩ := ofSeconds?_of_le hpos hle
    exact ⟨width, hwidth, width.dividesBy hseconds⟩

/-- The longest length of time is a width, and divides the time. -/
theorem dividesBy_iff_longest :
    let config : Config := { expiry := { precisionSecs := 9223372036854775 } }
    config.validate = .ok config ∧
      ∃ width, ofSeconds? config.expiry.precisionSecs = some width ∧
        width.DividesBy 9223372036854775 := by
  intro config
  have hvalid : config.validate = .ok config := by decide
  exact ⟨hvalid, (dividesBy_iff config hvalid).mpr (by decide)⟩

/-- The largest precision is allowed and taken for one second: an instant five
seconds before 1970 is listed in a slice of its own, although the first multiple
of the precision behind it is the start of 1970.  One second more than the longest
length of time is allowed as well, and has no width. -/
theorem dividesBy_lost :
    let config (precision : UInt64) : Config := { expiry := { precisionSecs := precision } }
    let instant : Instant := .ofInt64 (-5000000000)
    ((config 18446744073709551615).validate = .ok (config 18446744073709551615) ∧
      (ofSeconds? 18446744073709551615).map (·.ceil instant) = some (-5) ∧
      IsLeast {second | (18446744073709551615 : ℤ) ∣ second ∧
        instant.place ≤ startOf second} 0) ∧
    (config 9223372036854776).validate = .ok (config 9223372036854776) ∧
      ofSeconds? 9223372036854776 = none := by
  intro config instant
  refine ⟨⟨by decide, by decide, ?_⟩, by decide, by decide⟩
  constructor
  · exact ⟨Int.dvd_zero _, place_le_startOf_iff.mpr (by decide)⟩
  · rintro second ⟨hdvd, hle⟩
    rw [place_le_startOf_iff] at hle
    have hseconds : instant.seconds = -5 := by decide
    by_contra hnegative
    have hwhole := Int.le_of_dvd (show 0 < -second by omega) (Int.dvd_neg.mpr hdvd)
    omega

end BucketWidth
end StructuredStore
