import TradingDesk.Core.Polling
import TradingDesk.Utils.Timespec

/-!
# TradingDesk.Utils.Timestamp

**Drawing a timestamp** (`time.cpp`, `timestamp`): read a clock once, and then again until it
shows a later instant. On Windows and macOS, later is what `operator<=` says it is; the
POSIX branch compares seconds and nanoseconds separately, and takes an earlier second with
more nanoseconds for a later instant. A clock that is set back between two readings shows
such an instant.
-/

namespace TradingDesk.Utils

open TradingDesk.Core

/-- The loop goes on in the POSIX branch. -/
def notGreaterPosix (ref draw : Timespec) : Bool :=
  decide (draw.sec ≤ ref.sec) && decide (draw.nsec ≤ ref.nsec)

/-- `timestamp` on POSIX: the first reading is the reference, and what is compared first. -/
def TimestampPosix (clock : Nat → Timespec) (draw : Timespec) : Prop :=
  PollsTo (notGreaterPosix (clock 0)) clock draw

/-- `timestamp` on Windows. -/
def TimestampWindows (clock : Nat → Timespec) (draw : Timespec) : Prop :=
  PollsTo (fun draw => decide (draw ≤ clock 0)) clock draw

/-- `timestamp` on macOS. -/
def TimestampMacos (clock : Nat → Timespec) (draw : Timespec) : Prop :=
  PollsTo (fun draw => decide (draw ≤ clock 0)) clock draw

/-- What the POSIX branch returns is later than the reference, and it returns what the
others do. -/
def DrawsLater (clock : Nat → Timespec) : Prop :=
  ∀ draw, (TimestampPosix clock draw → clock 0 < draw) ∧
    (TimestampPosix clock draw ↔ TimestampWindows clock draw) ∧
    (TimestampPosix clock draw ↔ TimestampMacos clock draw)

/-- A reading of an earlier second, with more nanoseconds. -/
def SteppedBack (ref draw : Timespec) : Prop := draw.sec < ref.sec ∧ ref.nsec < draw.nsec

/-- The POSIX branch stops at later instants, and where the clock was stepped back. -/
theorem notGreaterPosix_eq_false {ref draw : Timespec} :
    notGreaterPosix ref draw = false ↔ ref < draw ∨ SteppedBack ref draw := by
  simp only [notGreaterPosix, SteppedBack, Timespec.lt_def, Bool.and_eq_false_iff,
    decide_eq_false_iff_not]
  omega

/-- **When the POSIX branch draws a later instant.** For every stream of readings, exactly if
none of an earlier second with more nanoseconds comes in front of the first later one. -/
theorem posix_draws_later_iff (clock : Nat → Timespec) :
    DrawsLater clock ↔ ∀ n, SteppedBack (clock 0) (clock n) → ∃ m < n, clock 0 < clock m := by
  have hlater : ∀ draw : Timespec, decide (draw ≤ clock 0) = false ↔ clock 0 < draw := by
    intro draw
    rw [decide_eq_false_iff_not, not_le]
  have hgoes : ∀ draw : Timespec, decide (draw ≤ clock 0) = true ↔ ¬ clock 0 < draw := by
    intro draw
    rw [decide_eq_true_eq, not_lt]
  have hstop : ∀ draw : Timespec,
      decide (draw ≤ clock 0) = false → notGreaterPosix (clock 0) draw = false := by
    intro draw hdraw
    exact notGreaterPosix_eq_false.mpr (Or.inl ((hlater draw).mp hdraw))
  have hlate : (∀ n, SteppedBack (clock 0) (clock n) → ∃ m < n, clock 0 < clock m) ↔
      ∀ n, notGreaterPosix (clock 0) (clock n) = false → decide (clock n ≤ clock 0) = true →
        ∃ m < n, decide (clock m ≤ clock 0) = false := by
    simp only [notGreaterPosix_eq_false, hlater, hgoes]
    refine forall_congr' fun n =>
      ⟨fun h hstops hnot => h (hstops.resolve_left hnot), fun h hback => ?_⟩
    refine h (Or.inr hback) ?_
    have hsec := hback.1
    rw [Timespec.lt_def]
    omega
  rw [hlate, ← pollsTo_stops_iff hstop]
  constructor
  · intro hdraws draw hdraw
    exact (hlater draw).mpr ((hdraws draw).1 hdraw)
  · intro hends draw
    have hcongr := pollsTo_congr hstop ((pollsTo_stops_iff hstop).mp hends) draw
    exact ⟨fun hdraw => (hlater draw).mp (hends draw hdraw), hcongr, hcongr⟩

/-- The clock shows 10.2 s, is set back to 9.5 s, and goes on at 10.3 s. -/
def steppedClock : Nat → Timespec
  | 0 => ⟨10, 200000000⟩
  | 1 => ⟨9, 500000000⟩
  | _ => ⟨10, 300000000⟩

/-- The POSIX branch returns the 9.5 s, the others the 10.3 s. -/
theorem steppedClock_draws_earlier :
    TimestampPosix steppedClock ⟨9, 500000000⟩ ∧ TimestampWindows steppedClock ⟨10, 300000000⟩ ∧
      ¬ DrawsLater steppedClock := by
  have hposix : TimestampPosix steppedClock ⟨9, 500000000⟩ := ⟨2, by decide⟩
  refine ⟨hposix, ⟨3, by decide⟩, fun hdraws => ?_⟩
  exact absurd ((hdraws _).1 hposix) (by decide)

end TradingDesk.Utils
