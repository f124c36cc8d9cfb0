import StructuredStore.Proofs.Frame.RoundTrip
import StructuredStore.Clock
import StructuredStore.Expiry

/-!
# Slices of time

The slices in which expiries are listed lie in the order of the instants, and
the start of each can be written as a 64-bit number of seconds.  An expiry
outside leap seconds is read back from a frame as it is.

Main results:

- `BucketWidth.ceil_le_ceil`: later instants are listed in later slices.
- `BucketWidth.toInt_ceil`: the start of a slice fits 64 bits.
- `Frame.asStored_some`: what is stored of an expiry outside leap seconds.
-/

namespace StructuredStore

/-! ## Instants outside leap seconds -/

namespace Instant

/-- Whether an instant lies outside leap seconds. -/
def IsRegular (instant : Instant) : Prop :=
  instant.nanos < 1000000000

instance (instant : Instant) : Decidable instant.IsRegular :=
  inferInstanceAs (Decidable (_ < _))

theorem isRegular_ofInt64 (count : Int64) : (ofInt64 count).IsRegular :=
  nanos_ofInt64_lt count

/-- What lies at or after an instant outside leap seconds has at least its
nanoseconds. -/
theorem IsRegular.nanoseconds_le {a b : Instant} (ha : a.IsRegular) (h : a ≤ b) :
    a.nanoseconds ≤ b.nanoseconds := by
  have hnot : ¬ (b.seconds < a.seconds ∨ b.seconds = a.seconds ∧ b.nanos < a.nanos) := h
  unfold IsRegular at ha
  unfold nanoseconds
  omega

theorem le_refl (instant : Instant) : instant ≤ instant := by
  show ¬ (instant.seconds < instant.seconds ∨
    instant.seconds = instant.seconds ∧ instant.nanos < instant.nanos)
  omega

theorem le_trans {a b c : Instant} (hab : a ≤ b) (hbc : b ≤ c) : a ≤ c := by
  have ha : ¬ (b.seconds < a.seconds ∨ b.seconds = a.seconds ∧ b.nanos < a.nanos) := hab
  have hb : ¬ (c.seconds < b.seconds ∨ c.seconds = b.seconds ∧ c.nanos < b.nanos) := hbc
  show ¬ (c.seconds < a.seconds ∨ c.seconds = a.seconds ∧ c.nanos < a.nanos)
  omega

/-- An instant outside leap seconds lies at or after everything that has at most
its nanoseconds. -/
theorem IsRegular.le_of_nanoseconds_le {a b : Instant} (hb : b.IsRegular)
    (h : a.nanoseconds ≤ b.nanoseconds) : a ≤ b := by
  unfold IsRegular at hb
  unfold nanoseconds at h
  show ¬ (b.seconds < a.seconds ∨ b.seconds = a.seconds ∧ b.nanos < a.nanos)
  omega

/-- An instant that is given by its count lies outside leap seconds. -/
theorem isRegular_of_ofNanoseconds? {count : Int} {instant : Instant}
    (h : ofNanoseconds? count = some instant) : instant.IsRegular := by
  unfold ofNanoseconds? ofParts? at h
  split at h
  · cases h
    have hrest := Int.emod_lt_of_pos count (show (0 : Int) < 1000000000 by decide)
    exact (Int.toNat_lt' (by decide)).mpr hrest
  · cases h

/-- From outside leap seconds no length of time leads into one. -/
theorem IsRegular.of_add? {now instant : Instant} {span : Span} (hnow : now.IsRegular)
    (h : now.add? span = some instant) : instant.IsRegular := by
  unfold IsRegular at hnow
  rw [add?, if_pos (Or.inl hnow)] at h
  exact isRegular_of_ofNanoseconds? h

end Instant

/-- Clocks show no leap seconds. -/
theorem Clock.isRegular_now (clock : Clock) : clock.now.IsRegular :=
  Instant.isRegular_ofInt64 clock.nanoseconds

/-- What is stored of an expiry outside leap seconds is that expiry, or none. -/
theorem Frame.asStored_some {instant stored : Instant} (hregular : instant.IsRegular)
    (h : asStored (some instant) = some stored) : stored = instant := by
  unfold asStored at h
  rw [Option.bind_some] at h
  cases hcount : instant.toInt64? with
  | none => simp [hcount] at h
  | some count =>
      simp only [hcount] at h
      split at h
      · cases h
      · cases h
        exact Instant.ofInt64_of_toInt64? hcount hregular

/-- What is stored of an expiry has its nanoseconds, and lies outside leap
seconds. -/
theorem Frame.nanoseconds_of_asStored {instant stored : Instant}
    (h : asStored (some instant) = some stored) :
    stored.IsRegular ∧ stored.nanoseconds = instant.nanoseconds := by
  unfold asStored at h
  rw [Option.bind_some] at h
  cases hcount : instant.toInt64? with
  | none => simp [hcount] at h
  | some count =>
      simp only [hcount] at h
      split at h
      · cases h
      · cases h
        refine ⟨Instant.isRegular_ofInt64 count, ?_⟩
        rw [Instant.nanoseconds_ofInt64, Instant.toInt_of_toInt64? hcount]

/-! ## Starts of slices -/

namespace BucketWidth

variable (width : BucketWidth)

/-- An instant lies in the slice that its seconds fall into. -/
theorem floor_le (instant : Instant) :
    width.floor instant ≤ instant.seconds ∧ instant.seconds < width.floor instant + width.seconds := by
  have hpos := width.pos
  constructor
  · exact Int.ediv_mul_le _ (by omega)
  · have hlt := Int.lt_ediv_add_one_mul_self instant.seconds hpos
    rwa [Int.add_mul, Int.one_mul] at hlt

/-- Later seconds fall into later slices. -/
theorem floor_le_floor {a b : Instant} (h : a.seconds ≤ b.seconds) :
    width.floor a ≤ width.floor b :=
  Int.mul_le_mul_of_nonneg_right (Int.ediv_le_ediv width.pos h) (Int.le_of_lt width.pos)

/-- Different slices are at least a width apart. -/
theorem floor_add_le_floor {a b : Instant} (h : width.floor a < width.floor b) :
    width.floor a + width.seconds ≤ width.floor b := by
  have hpos := width.pos
  have hlt : a.seconds / width.seconds < b.seconds / width.seconds :=
    Int.lt_of_mul_lt_mul_right h (Int.le_of_lt hpos)
  calc
    width.floor a + width.seconds
        = (a.seconds / width.seconds + 1) * width.seconds := by
          rw [Int.add_mul, Int.one_mul, floor]
    _ ≤ width.floor b := Int.mul_le_mul_of_nonneg_right hlt (Int.le_of_lt hpos)

/-- Later instants are listed in later slices. -/
theorem ceil_le_ceil {a b : Instant} (h : a ≤ b) : width.ceil a ≤ width.ceil b := by
  have hpos := width.pos
  have hfloor := width.floor_le b
  have horder : a.seconds < b.seconds ∨ a.seconds = b.seconds ∧ a.nanos ≤ b.nanos := by
    have hnot : ¬ (b.seconds < a.seconds ∨ b.seconds = a.seconds ∧ b.nanos < a.nanos) := h
    omega
  have hle := width.floor_le_floor (show a.seconds ≤ b.seconds by omega)
  unfold ceil
  by_cases hb : width.floor b = b.seconds ∧ b.nanos = 0
  · rw [if_pos hb]
    rcases horder with hlt | ⟨heq, hnanos⟩
    · -- The later instant starts a slice, so the earlier one lies in one before it.
      have hstep := @floor_add_le_floor width a b (by have := width.floor_le a; omega)
      split <;> omega
    · have hsame : width.floor a = width.floor b := by rw [floor, floor, heq]
      rw [if_pos ⟨by omega, by omega⟩]
      exact Int.le_of_eq hsame
  · rw [if_neg hb]
    split <;> omega

/-- The start of a slice lies close to the instants in it. -/
theorem ceil_bounds (instant : Instant) :
    instant.seconds ≤ width.ceil instant ∧
      width.ceil instant ≤ instant.seconds + width.seconds := by
  have hfloor := width.floor_le instant
  have hpos := width.pos
  unfold ceil
  split <;> omega

/-- The start of a slice fits 64 bits. -/
theorem toInt_ceil (instant : Instant) :
    (Int64.ofInt (width.ceil instant)).toInt = width.ceil instant := by
  have hbounds := width.ceil_bounds instant
  have hfirst := instant.first_le
  have hlast := instant.le_last
  have hmax := width.le_max
  unfold firstSecond at hfirst
  unfold lastSecond at hlast
  unfold maxSeconds at hmax
  exact Int64.toInt_ofInt_of_le (by omega) (by omega)

end BucketWidth
end StructuredStore
