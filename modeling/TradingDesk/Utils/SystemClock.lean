import Mathlib.Data.Int.GCD
import Mathlib.Tactic.Linarith

/-!
# TradingDesk.Utils.SystemClock

**Time points** (`std::chrono::system_clock`). A time point is a 64-bit count of ticks since the
epoch, and how long a tick is is up to the standard library. An instant that has more ticks than
64 bits hold wraps around to another one on the way from `std::time_t`.
-/

namespace TradingDesk.Utils

/-- `std::chrono::system_clock`, by its period, which is a whole number of nanoseconds. -/
structure SystemClock where
  ticksPerSecond : Nat
  dvd_nano : ticksPerSecond ∣ 1000000000

namespace SystemClock

/-- The clock of libstdc++. -/
def nanoseconds : SystemClock := ⟨1000000000, by decide⟩

/-- The clock of libc++. -/
def microseconds : SystemClock := ⟨1000000, by decide⟩

variable (clock : SystemClock)

/-- `from_time_t`. What does not fit into the count of ticks wraps around. -/
def fromTimeT (t : Int) : Int := (t * clock.ticksPerSecond).bmod (2 ^ 64)

/-- `duration_cast` to seconds, and `to_time_t`. -/
def toSeconds (tp : Int) : Int := tp.tdiv clock.ticksPerSecond

/-- The clock has a time point for the instant. -/
def Represents (t : Int) : Prop :=
  -2 ^ 63 ≤ t * clock.ticksPerSecond ∧ t * clock.ticksPerSecond < 2 ^ 63

instance (t : Int) : Decidable (clock.Represents t) := inferInstanceAs (Decidable (_ ∧ _))

theorem ticksPerSecond_pos : (0 : Int) < clock.ticksPerSecond :=
  Int.natCast_pos.mpr (Nat.pos_of_dvd_of_pos clock.dvd_nano (by decide))

variable {clock} {t : Int}

theorem fromTimeT_of_represents (h : clock.Represents t) :
    clock.fromTimeT t = t * clock.ticksPerSecond := by
  obtain ⟨hlo, hhi⟩ := h
  exact Int.bmod_eq_of_le_mul_two (by push_cast; omega) (by push_cast; omega)

theorem toSeconds_fromTimeT (h : clock.Represents t) : clock.toSeconds (clock.fromTimeT t) = t := by
  rw [fromTimeT_of_represents h, toSeconds, Int.mul_tdiv_cancel _ clock.ticksPerSecond_pos.ne']

/-- Truncation stays between the epoch and the time point. -/
theorem represents_toSeconds {tp : Int} (h : -2 ^ 63 ≤ tp ∧ tp < 2 ^ 63) :
    clock.Represents (clock.toSeconds tp) := by
  have hmul := Int.tdiv_mul_self tp clock.ticksPerSecond
  rw [Represents, toSeconds]
  rcases Int.le_total 0 tp with h0 | h0
  · have hrem := Int.tmod_nonneg (clock.ticksPerSecond : Int) h0
    have hdiv := Int.mul_nonneg (Int.tdiv_nonneg h0 clock.ticksPerSecond_pos.le)
      clock.ticksPerSecond_pos.le
    omega
  · have hneg : 0 ≤ -tp := by omega
    have hrem := Int.tmod_nonneg (clock.ticksPerSecond : Int) hneg
    have hdiv := Int.mul_nonneg (Int.tdiv_nonneg hneg clock.ticksPerSecond_pos.le)
      clock.ticksPerSecond_pos.le
    rw [Int.neg_tmod] at hrem
    rw [Int.neg_tdiv, Int.neg_mul] at hdiv
    omega

/-- Whatever was wrapped, the whole seconds of a time point are an instant that the clock
represents. -/
theorem represents_toSeconds_fromTimeT :
    clock.Represents (clock.toSeconds (clock.fromTimeT t)) := by
  have hlo := Int.le_bmod (x := t * clock.ticksPerSecond) (m := 2 ^ 64) (by decide)
  have hhi := Int.bmod_lt (x := t * clock.ticksPerSecond) (m := 2 ^ 64) (by decide)
  exact represents_toSeconds ⟨hlo, hhi⟩

theorem toSeconds_fromTimeT_iff : clock.toSeconds (clock.fromTimeT t) = t ↔ clock.Represents t :=
  ⟨fun h => h ▸ represents_toSeconds_fromTimeT, toSeconds_fromTimeT⟩

/-- The instants from the epoch to one that the clock represents. -/
theorem Represents.of_le {u : Int} (h : clock.Represents t) (h0 : 0 ≤ u) (hle : u ≤ t) :
    clock.Represents u := by
  have hmul := Int.mul_le_mul_of_nonneg_right hle clock.ticksPerSecond_pos.le
  have hnonneg := Int.mul_nonneg h0 clock.ticksPerSecond_pos.le
  exact ⟨by omega, lt_of_le_of_lt hmul h.2⟩

/-- Of the instants that can be read, the epoch alone becomes the epoch. -/
theorem fromTimeT_eq_zero_iff (h : -2 ^ 40 < t ∧ t < 2 ^ 40) : clock.fromTimeT t = 0 ↔ t = 0 := by
  constructor
  · intro hzero
    -- the nanoseconds are a multiple of 2 ^ 64, too, and there are 2 ^ 9 * 5 ^ 9 in a second
    have hticks : (2 : Int) ^ 64 ∣ t * clock.ticksPerSecond := Int.dvd_of_bmod_eq_zero hzero
    have hnano : (2 : Int) ^ 64 ∣ t * 1000000000 :=
      hticks.trans (Int.mul_dvd_mul_left t (Int.natCast_dvd_natCast.mpr clock.dvd_nano))
    have hodd : (2 : Int) ^ 55 ∣ t * 1953125 := by
      refine Int.dvd_of_mul_dvd_mul_left (a := 512) (by decide) ?_
      rwa [Int.mul_left_comm]
    obtain ⟨q, rfl⟩ := Int.dvd_of_dvd_mul_left_of_gcd_one hodd (by decide)
    omega
  · rintro rfl
    rw [fromTimeT, Int.zero_mul, Int.zero_bmod]

/-- Nor are they far apart after a wrap-around. -/
theorem toSeconds_fromTimeT_bounds (h : -2 ^ 40 < t ∧ t < 2 ^ 40) :
    -2 ^ 40 < clock.toSeconds (clock.fromTimeT t) ∧
      clock.toSeconds (clock.fromTimeT t) < 2 ^ 40 := by
  by_cases hrep : clock.Represents t
  · rwa [toSeconds_fromTimeT hrep]
  · -- a clock that wraps around so early has more than 2 ^ 23 ticks a second
    have hticks : (2 : Int) ^ 23 < clock.ticksPerSecond := by
      by_contra hle
      refine hrep ⟨?_, ?_⟩ <;> nlinarith
    obtain ⟨hlo, hhi⟩ : clock.Represents (clock.toSeconds (clock.fromTimeT t)) :=
      represents_toSeconds_fromTimeT
    constructor <;> nlinarith

end SystemClock
end TradingDesk.Utils
