import TradingDesk.Utils.MulDiv
import TradingDesk.Utils.Timespec

/-!
# TradingDesk.Utils.HiresClock

**The emulated high-resolution clock** (`precise_time.cpp`): a counter of any frequency is
scaled to ticks of a hundred nanoseconds, and the ticks are split into seconds and
nanoseconds. The scaling rounds down and the splitting is exact, so the order of two
readings of the counter is kept as long as the ticks fit into 64 bits.
-/

namespace TradingDesk.Utils

/-- `clock_state_base::factor`: ticks of a second. -/
def factor : UInt64 := 10000000

/-- `clock_state`: the time and the reading of the counter when it was made, and how often
the counter is advanced in a second. -/
structure ClockState where
  zeroTime : UInt64
  offset : UInt64
  frequency : UInt64

namespace ClockState

/-- `clock_state::delta`. The clock is compiled on Windows only. What the assert says of `frequency`
is a hypothesis of the results. -/
def delta (clock : ClockState) (ts : UInt64) : UInt64 :=
  muldiv64Windows (ts - clock.offset) factor clock.frequency

/-- `clock_state_base::now` of a reading of the counter, without the asserts that `zero_time` and
`offset` are positive: neither value changes, so what holds without them holds with them. -/
def now (clock : ClockState) (ts : UInt64) : UInt64 := clock.zeroTime + clock.delta ts

end ClockState

/-- `timespec(duration)` of a count of `hundreds_of_nanoseconds`. -/
def Timespec.ofHundredsOfNanoseconds (duration : UInt64) : Timespec :=
  ⟨(duration / 10000000).toNat, (duration % 10000000).toNat * 100⟩

/-- `emulate_timestamp`, at a reading of the counter. -/
def emulateTimestamp (clock : ClockState) (ts : UInt64) : Timespec :=
  .ofHundredsOfNanoseconds (clock.now ts)

/-- The splitting is exact. -/
theorem ofHundredsOfNanoseconds_eq (duration : UInt64) :
    Timespec.ofHundredsOfNanoseconds duration = .ofTotal (100 * (duration.toNat : Int)) := by
  have hsec : (duration / 10000000).toNat = duration.toNat / 10000000 := UInt64.toNat_div _ _
  have hnsec : (duration % 10000000).toNat = duration.toNat % 10000000 := UInt64.toNat_mod _ _
  rw [Timespec.ofHundredsOfNanoseconds, Timespec.ofTotal, Timespec.mk.injEq, hsec, hnsec]
  omega

section

variable {clock : ClockState} {ts : UInt64}

/-- The ticks since the clock was made, as far as they fit. -/
theorem toNat_delta (hfreq : 1 ≤ clock.frequency) (hts : clock.offset ≤ ts) :
    (clock.delta ts).toNat
      = (ts.toNat - clock.offset.toNat) * 10000000 / clock.frequency.toNat % 2 ^ 64 := by
  have hne : clock.frequency ≠ 0 := by
    intro hzero
    rw [hzero] at hfreq
    exact absurd hfreq (by decide)
  rw [ClockState.delta, toNat_muldiv64Windows _ _ hne, UInt64.toNat_sub_of_le _ _ hts]
  rfl

theorem toNat_now (hfreq : 1 ≤ clock.frequency) (hts : clock.offset ≤ ts)
    (hfits : clock.zeroTime.toNat
      + (ts.toNat - clock.offset.toNat) * 10000000 / clock.frequency.toNat < 2 ^ 64) :
    (clock.now ts).toNat = clock.zeroTime.toNat
      + (ts.toNat - clock.offset.toNat) * 10000000 / clock.frequency.toNat := by
  have hdelta := toNat_delta hfreq hts
  rw [Nat.mod_eq_of_lt (by omega)] at hdelta
  rw [ClockState.now, toNat_add_of_lt (by rw [hdelta]; exact hfits), hdelta]

end

/-- **The clock is monotone.** As long as the ticks of the later reading fit into 64 bits, the
ticks of two readings are in the order of the readings; the instants made of them are
normalised, have a hundred nanoseconds for each tick, and compare as the ticks do. -/
theorem hires_clock_monotone {clock : ClockState} (hfreq : 1 ≤ clock.frequency) {ts₁ ts₂ : UInt64}
    (h₁ : clock.offset ≤ ts₁) (h₂ : ts₁ ≤ ts₂)
    (hfits : clock.zeroTime.toNat
      + (ts₂.toNat - clock.offset.toNat) * 10000000 / clock.frequency.toNat < 2 ^ 64) :
    clock.now ts₁ ≤ clock.now ts₂ ∧
      (∀ ts ∈ [ts₁, ts₂],
        (clock.now ts).toNat = clock.zeroTime.toNat
          + (ts.toNat - clock.offset.toNat) * 10000000 / clock.frequency.toNat ∧
        (emulateTimestamp clock ts).Normalized ∧
        (emulateTimestamp clock ts).total = 100 * ((clock.now ts).toNat : Int)) ∧
      (emulateTimestamp clock ts₁ < emulateTimestamp clock ts₂ ↔ clock.now ts₁ < clock.now ts₂) ∧
      (emulateTimestamp clock ts₁ = emulateTimestamp clock ts₂ ↔
        clock.now ts₁ = clock.now ts₂) := by
  have hmono : (ts₁.toNat - clock.offset.toNat) * 10000000 / clock.frequency.toNat
      ≤ (ts₂.toNat - clock.offset.toNat) * 10000000 / clock.frequency.toNat := by
    have hle : ts₁.toNat ≤ ts₂.toNat := UInt64.le_iff_toNat_le.mp h₂
    exact Nat.div_le_div_right (Nat.mul_le_mul_right _ (Nat.sub_le_sub_right hle _))
  have hnow₁ := toNat_now hfreq h₁ (lt_of_le_of_lt (Nat.add_le_add_left hmono _) hfits)
  have hnow₂ := toNat_now hfreq (UInt64.le_trans h₁ h₂) hfits
  refine ⟨?_, ?_, ?_, ?_⟩
  · rw [UInt64.le_iff_toNat_le, hnow₁, hnow₂]
    exact Nat.add_le_add_left hmono _
  · have hinstant : ∀ ts, (emulateTimestamp clock ts).Normalized ∧
        (emulateTimestamp clock ts).total = 100 * ((clock.now ts).toNat : Int) := by
      intro ts
      rw [emulateTimestamp, ofHundredsOfNanoseconds_eq]
      exact ⟨Timespec.normalized_ofTotal _, Timespec.total_ofTotal _⟩
    intro ts hts
    simp only [List.mem_cons, List.not_mem_nil, or_false] at hts
    rcases hts with rfl | rfl
    · exact ⟨hnow₁, hinstant _⟩
    · exact ⟨hnow₂, hinstant _⟩
  · rw [emulateTimestamp, emulateTimestamp, ofHundredsOfNanoseconds_eq, ofHundredsOfNanoseconds_eq,
      Timespec.ofTotal_lt_ofTotal, UInt64.lt_iff_toNat_lt]
    omega
  · rw [emulateTimestamp, emulateTimestamp, ofHundredsOfNanoseconds_eq, ofHundredsOfNanoseconds_eq,
      Timespec.ofTotal_inj, ← UInt64.toNat_inj]
    omega

/-- A counter that is advanced three times in a second, made on the first day of 2020, at the
readings 7 and 10. -/
theorem slow_counter_monotone :
    let clock : ClockState := ⟨15778368000000000, 7, 3⟩
    clock.now 7 ≤ clock.now 10 ∧ emulateTimestamp clock 7 < emulateTimestamp clock 10 := by
  intro clock
  have h := @hires_clock_monotone clock (by decide) 7 10 (by decide) (by decide) (by decide)
  exact ⟨h.1, h.2.2.1.mpr (by decide +kernel)⟩

end TradingDesk.Utils
