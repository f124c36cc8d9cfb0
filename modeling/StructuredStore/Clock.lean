import StructuredStore.Time.Instant

/-!
# Clocks

Two clocks.  A `Clock` moves only when it is told to, and keeps its time as a
64-bit count of nanoseconds: a time that the count cannot hold is taken as the
latest one, and moving past either end of the count wraps around.  A
`CachedClock` follows the time of the system, which it reads once every period.

Main results:

- `CachedClock.shown_le`, `CachedClock.lt_shown_add`: a cached clock is never
  ahead of the system, and behind it by less than a period.
-/

namespace StructuredStore

/-! ## Clocks that are moved -/

/-- A clock that moves only when told to. -/
structure Clock where
  nanoseconds : Int64
deriving DecidableEq, Repr

namespace Clock

/-- A clock that shows the given instant. -/
def starting (instant : Instant) : Clock :=
  ⟨instant.toInt64?.getD Int64.maxValue⟩

/-- The clock moved by a length of time. -/
def advance (clock : Clock) (span : Span) : Clock :=
  ⟨clock.nanoseconds + span.toInt64?.getD Int64.maxValue⟩

/-- The instant that the clock shows. -/
def now (clock : Clock) : Instant :=
  .ofInt64 clock.nanoseconds

end Clock

/-! ## Clocks that follow the system -/

/-- A clock that reads the system's time when it is started and once every
period after that.  Times are counts of nanoseconds. -/
structure CachedClock where
  start : Int
  period : Nat
  period_pos : 0 < period
deriving DecidableEq

namespace CachedClock

/-- What the clock shows at a time of the system: the time of its last
reading. -/
def shown (clock : CachedClock) (system : Int) : Int :=
  system - (system - clock.start) % clock.period

/-- A cached clock is never ahead of the system. -/
theorem shown_le (clock : CachedClock) (system : Int) : clock.shown system ≤ system := by
  have hpos := clock.period_pos
  have hmod := Int.emod_nonneg (system - clock.start) (b := clock.period) (by omega)
  unfold shown
  omega

/-- A cached clock is behind the system by less than a period. -/
theorem lt_shown_add (clock : CachedClock) (system : Int) :
    system < clock.shown system + clock.period := by
  have hpos := clock.period_pos
  have hmod := Int.emod_lt_of_pos (system - clock.start) (b := clock.period) (by omega)
  unfold shown
  omega

end CachedClock
end StructuredStore
