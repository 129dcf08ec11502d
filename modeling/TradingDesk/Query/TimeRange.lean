import TradingDesk.Query.Main
import TradingDesk.Utils.IsoText

/-!
# TradingDesk.Query.TimeRange

**What a query accepts as its time** (`nasdaq_exec.cpp`, `get_time_range`). The grammar
looks at digits and separators only, and allows signs; `timegm` makes an instant of
whatever fields were read; and the date of that instant has to be one of Boost's.
-/

namespace TradingDesk.Query

open TradingDesk.Core
open TradingDesk.Utils

/-! ### The day of the instant -/

/-- The year of an instant is one that Boost supports. -/
def SupportedYear (t : Int) : Prop :=
  1400 ≤ (Civil.ofDays (t / 86400)).year ∧ (Civil.ofDays (t / 86400)).year ≤ 9999

/-- From the midnight of the day to the instant that was read, in whole seconds. -/
structure IsDayRange (w : List UInt8) (first last : Timespec) : Prop where
  last_eq : ∃ tm, parseTm w = some tm ∧ last = ⟨timegm tm, 0⟩
  first_eq : first = ⟨last.sec / 86400 * 86400, 0⟩
  first_le : first ≤ last
  last_lt : last < first.add (86400 * 1000000000)

/-- The midnight of a day is less than a day before. -/
theorem isDayRange_midnight {w : List UInt8} {tm : Tm} (h : parseTm w = some tm) :
    IsDayRange w ⟨timegm tm / 86400 * 86400, 0⟩ ⟨timegm tm, 0⟩ := by
  refine ⟨⟨tm, h, rfl⟩, rfl, Timespec.mk_le_mk.mpr (by omega), ?_⟩
  have hadd : (⟨timegm tm / 86400 * 86400, 0⟩ : Timespec).add (86400 * 1000000000)
      = ⟨timegm tm / 86400 * 86400 + 86400, 0⟩ := rfl
  rw [hadd, Timespec.mk_lt_mk]
  omega

/-- The text is rejected, or gives the range of its day. -/
def IsTotalOn (clock : SystemClock) (w : List UInt8) : Prop :=
  getTimeRange clock w = .error (.exception "invalid time") ∨
    ∃ first last, getTimeRange clock w = .ok (first, last) ∧ IsDayRange w first last

/-- Of fields that were read and are not the epoch's, the clock has to have a time point, and Boost
a date. -/
theorem isTotalOn_iff_of_parseTm {clock : SystemClock} {w : List UInt8} {tm : Tm}
    (hread : parseTm w = some tm) (hepoch : timegm tm ≠ 0) :
    IsTotalOn clock w ↔ clock.Represents (timegm tm) ∧ SupportedYear (timegm tm) := by
  have hrange := @getTimeRange_of_parseTm clock w tm hread hepoch _ rfl
  rw [IsTotalOn, hrange, ← SystemClock.toSeconds_fromTimeT_iff, SupportedYear, year_ofDays]
  constructor
  · rintro (herror | ⟨first, last, hok, ⟨tm', hread', hlast⟩, -⟩)
    · split at herror <;> cases herror
    · obtain rfl := Option.some.inj (hread.symm.trans hread')
      split at hok
      · rename_i hday
        obtain ⟨-, hsec⟩ := Prod.mk.inj (Except.ok.inj hok)
        have hinstant := (Timespec.mk.inj (hsec.trans hlast)).1
        rw [hinstant] at hday
        exact ⟨hinstant, hday⟩
      · cases hok
  · rintro ⟨hinstant, hday⟩
    rw [hinstant, if_pos hday]
    exact Or.inr ⟨_, _, rfl, isDayRange_midnight hread⟩

/-- **The requested range is total** on the texts that cannot be read, that denote the epoch,
and that denote an instant of a supported year that the clock represents. On all others the
process is terminated, or the range is that of another instant. -/
theorem getTimeRange_total_iff (clock : SystemClock) (w : List UInt8) :
    (getTimeRange clock w = .error (.exception "invalid time") ∨
        ∃ first last, getTimeRange clock w = .ok (first, last) ∧ IsDayRange w first last) ↔
      ∀ tm, parseTm w = some tm →
        timegm tm = 0 ∨ clock.Represents (timegm tm) ∧ SupportedYear (timegm tm) := by
  change IsTotalOn clock w ↔ _
  by_cases hfailure : fromIsoExtendedStringUtc clock w = 0
  · have hepoch := fromIso_eq_zero_iff.mp hfailure
    exact iff_of_true (Or.inl (getTimeRange_of_failure hfailure))
      fun tm hread => Or.inl (hepoch tm hread)
  · rw [fromIso_eq_zero_iff] at hfailure
    push Not at hfailure
    obtain ⟨tm, hread, hepoch⟩ := hfailure
    rw [isTotalOn_iff_of_parseTm hread hepoch]
    constructor
    · intro h tm' hread'
      obtain rfl := Option.some.inj (hread.symm.trans hread')
      exact Or.inr h
    · intro h
      exact (h tm hread).resolve_left hepoch

/-- The second before the first supported year. With libc++ the process is terminated; with
libstdc++ the range is that of a day of 1984. -/
theorem last_second_of_1399_terminates :
    ¬ IsTotalOn .microseconds (ascii "1399-12-31T23:59:59") ∧
      ¬ IsTotalOn .nanoseconds (ascii "1399-12-31T23:59:59") := by
  have hread : parseTm (ascii "1399-12-31T23:59:59") = some ⟨-501, 11, 31, 23, 59, 59⟩ := by decide
  rw [isTotalOn_iff_of_parseTm hread (by decide), isTotalOn_iff_of_parseTm hread (by decide)]
  constructor
  · rintro ⟨-, hyear, -⟩
    exact absurd hyear (by decide)
  · rintro ⟨hclock, -⟩
    exact absurd hclock (by decide)

example : getTimeRange .microseconds (ascii "1399-12-31T23:59:59") = .error .terminated ∧
    getTimeRange .nanoseconds (ascii "1399-12-31T23:59:59")
      = .ok (⟨459216000, 0⟩, ⟨459300872, 0⟩) := by decide +kernel

/-! ### The text of the instant -/

/-- A text of the form `YYYY-MM-DDTHH:MM:SS`. -/
def IsIsoText (text : List UInt8) : Prop :=
  ∃ date hour min sec, IsoDigits date hour min sec ∧ text = isoText date hour min sec

/-- What is accepted has the form of the comments and is what would be written for it;
anything else is reported. -/
structure AcceptsInstantsOnly (clock : SystemClock) (str : List UInt8) : Prop where
  accepted : fromIsoExtendedStringUtc clock str ≠ 0 → IsIsoText (str.take 19) ∧
    str.take 19 <+: toIsoExtendedStringUtc (clock.toSeconds (fromIsoExtendedStringUtc clock str))
  rejected : fromIsoExtendedStringUtc clock str = 0 →
    getTimeRange clock str = .error (.exception "invalid time")

theorem take_isoText {date : Civil} {hour min sec : Nat} {str : List UInt8}
    (h : isoText date hour min sec <+: str) : str.take 19 = isoText date hour min sec := by
  obtain ⟨rest, rfl⟩ := h
  exact List.take_left' (length_isoText _ _ _ _)

/-- **Only real instants are accepted** of a text exactly if whatever the grammar matches,
the epoch apart, is the text of an existing date and time of day that the clock represents. -/
theorem accepts_instants_only_iff (clock : SystemClock) (str : List UInt8) :
    AcceptsInstantsOnly clock str ↔ ∀ tm, parseTm str = some tm → timegm tm ≠ 0 →
      clock.Represents (timegm tm) ∧
        ∃ date hour min sec, IsInstant date hour min sec ∧ isoText date hour min sec <+: str := by
  constructor
  · rintro ⟨haccepted, -⟩ tm hparse hepoch
    have hread : fromIsoExtendedStringUtc clock str ≠ 0 :=
      fun hzero => hepoch (fromIso_eq_zero_iff.mp hzero tm hparse)
    obtain ⟨⟨date, hour, min, sec, hdigits, htext⟩, hwritten⟩ := haccepted hread
    have hstart : isoText date hour min sec <+: str := by
      rw [← htext]
      exact List.take_prefix _ _
    obtain ⟨rest, rfl⟩ := id hstart
    have hinstant : timegm tm = instantOf date hour min sec := by
      obtain rfl := Option.some.inj (hparse.symm.trans (parseTm_isoText hdigits rest))
      simp only [timegm, instantOf, Int.sub_add_cancel]
    rw [htext, fromIso_isoText clock hdigits] at hwritten
    -- what is written for the time point is the instant that was read
    obtain ⟨hexists, hsame⟩ := (isoText_isPrefix_toIso hdigits).mp hwritten
    rw [hinstant]
    exact ⟨SystemClock.toSeconds_fromTimeT_iff.mp hsame, date, hour, min, sec, hexists, hstart⟩
  · intro hexists
    refine ⟨fun hread => ?_, getTimeRange_of_failure⟩
    rw [ne_eq, fromIso_eq_zero_iff] at hread
    push Not at hread
    obtain ⟨tm, hparse, hepoch⟩ := hread
    obtain ⟨hclock, date, hour, min, sec, hinstant, hstart⟩ := hexists tm hparse hepoch
    have hdigits := hinstant.isoDigits
    rw [take_isoText hstart]
    obtain ⟨rest, rfl⟩ := hstart
    obtain rfl := Option.some.inj (hparse.symm.trans (parseTm_isoText hdigits rest))
    have hseconds := SystemClock.toSeconds_fromTimeT hclock
    simp only [timegm, Int.sub_add_cancel] at hseconds
    rw [fromIso_isoText clock hdigits]
    exact ⟨⟨date, hour, min, sec, hdigits, rfl⟩,
      (isoText_isPrefix_toIso hdigits).mpr ⟨hinstant, hseconds⟩⟩

/-- The thirtieth of February is accepted, and read as the first of March. -/
theorem thirtieth_of_february_accepted :
    ¬ AcceptsInstantsOnly .nanoseconds (ascii "2020-02-30T00:00:00") := by
  intro h
  have hread : fromIsoExtendedStringUtc .nanoseconds (ascii "2020-02-30T00:00:00")
      = 1583020800000000000 := by decide
  obtain ⟨-, hwritten⟩ := h.accepted (by rw [hread]; decide)
  have hseconds : SystemClock.nanoseconds.toSeconds 1583020800000000000 = 1583020800 := by decide
  have htext : toIsoExtendedStringUtc 1583020800 = ascii "2020-03-01T00:00:00Z" := by
    rw [toIsoExtendedStringUtc_eq ⟨by decide, by decide⟩]
    decide
  rw [hread, hseconds, htext] at hwritten
  exact absurd hwritten (by decide)

end TradingDesk.Query
