import Mathlib.Algebra.Ring.Int.Defs
import Mathlib.Algebra.Ring.Nat
import TradingDesk.Core.Calendar
import TradingDesk.Utils.Timespec

/-!
# TradingDesk.Utils.Gregorian

**Dates of instants** (`gregorian.hpp`, over Boost's `gregorian_calendar.ipp` and
`time_system_counted.hpp`). Boost computes dates in unsigned 32-bit arithmetic and
narrows the components to 16 bits before it checks their ranges. Within the day
numbers where nothing wraps, that is the proleptic Gregorian calendar, cut off at
the years 1400 and 9999.
-/

namespace TradingDesk.Utils

open TradingDesk.Core (Civil)

/-! ### Boost's calendar -/

/-- `greg_year_month_day`: the constructors of the components throw outside their
ranges. -/
@[ext] structure Ymd where
  year : Nat
  month : Nat
  day : Nat
  year_range : 1400 ≤ year ∧ year ≤ 9999
  month_range : 1 ≤ month ∧ month ≤ 12
  day_range : 1 ≤ day ∧ day ≤ 31
  deriving DecidableEq

namespace Ymd

/-- `ymd_type(year, month, day)`; `none` is a range exception. -/
def make (year month day : Nat) : Option Ymd :=
  if h : (1400 ≤ year ∧ year ≤ 9999) ∧ (1 ≤ month ∧ month ≤ 12) ∧ 1 ≤ day ∧ day ≤ 31 then
    some ⟨year, month, day, h.1, h.2.1, h.2.2⟩
  else none

/-- The date without the range restrictions. -/
def toCivil (ymd : Ymd) : Civil := ⟨ymd.year, ymd.month, ymd.day⟩

/-- `gregorian_calendar_base::day_number`. The differences are of numbers that do not
go below zero for a date within the ranges. -/
def dayNumber (ymd : Ymd) : UInt32 :=
  let a := (14 - ymd.month) / 12
  let y := ymd.year + 4800 - a
  let m := ymd.month + 12 * a - 3
  .ofNat (ymd.day + (153 * m + 2) / 5 + 365 * y + y / 4 - y / 100 + y / 400 - 32045)

end Ymd

/-- `gregorian_calendar_base::from_day_number`. -/
def fromDayNumber (dayNumber : UInt32) : Option Ymd :=
  let a := dayNumber + 32044
  let b := (4 * a + 3) / 146097
  let c := a - 146097 * b / 4
  let d := (4 * c + 3) / 1461
  let e := c - 1461 * d / 4
  let m := (5 * e + 2) / 153
  Ymd.make (100 * b + d - 4800 + m / 10).toUInt16.toNat (m + 3 - 12 * (m / 10)).toUInt16.toNat
    (e - (153 * m + 2) / 5 + 1).toUInt16.toNat

/-- `boost::gregorian::date`: it keeps the day number only. -/
structure Date where
  days : UInt32
  deriving DecidableEq

/-- `date::year_month_day`; `year()`, `month()` and `day()` are its components. -/
def Date.ymd (date : Date) : Option Ymd := fromDayNumber date.days

/-- The day number of 1970-01-01. -/
def epochDay : Int := 2440588

/-- `extract_date`: the day count of the seconds since day 0, rounded towards zero and
narrowed to the calendar's unsigned 32 bits. The function is `noexcept`: on a range
exception (`none`) the process is terminated. -/
def extractDate (ts : Timespec) : Option Date :=
  let dayCount := (epochDay * 86400 + ts.sec).tdiv 86400
  (fromDayNumber (.ofInt dayCount)).map fun ymd => ⟨ymd.dayNumber⟩

/-- `extract_seconds` of a date: its midnight, in seconds since the epoch. -/
def extractSeconds (date : Date) : Int := ((date.days.toNat : Int) - epochDay) * 86400

/-- `make_timespec` of a date. -/
def makeTimespec (date : Date) : Timespec := ⟨((date.days.toNat : Int) - epochDay) * 86400, 0⟩

/-! ### Unsigned arithmetic that does not wrap -/

theorem toNat_add32 {x y : UInt32} (h : x.toNat + y.toNat < 2 ^ 32) :
    (x + y).toNat = x.toNat + y.toNat := by
  rw [UInt32.toNat_add, Nat.mod_eq_of_lt h]

theorem toNat_mul32 {x y : UInt32} (h : x.toNat * y.toNat < 2 ^ 32) :
    (x * y).toNat = x.toNat * y.toNat := by
  rw [UInt32.toNat_mul, Nat.mod_eq_of_lt h]

theorem toNat_ofInt32 {n : Int} (h0 : 0 ≤ n) (h : n < 2 ^ 32) :
    ((UInt32.ofInt n).toNat : Int) = n := by
  rw [UInt32.ofInt, Int.emod_eq_of_lt h0 h, UInt32.toNat_ofNat_of_lt' (by show _ < 2 ^ 32; omega),
    Int.toNat_of_nonneg h0]

/-- A scaled division. -/
theorem toNat_scaled {k x r q : UInt32} (h : k.toNat * x.toNat + r.toNat < 2 ^ 32) :
    ((k * x + r) / q).toNat = (k.toNat * x.toNat + r.toNat) / q.toNat := by
  have hmul : (k * x).toNat = k.toNat * x.toNat := toNat_mul32 (by omega)
  rw [UInt32.toNat_div, toNat_add32 (by rw [hmul]; exact h), hmul]

/-- What is left behind whole periods. -/
theorem toNat_rest {y k x q : UInt32} (h : k.toNat * x.toNat < 2 ^ 32)
    (hle : k.toNat * x.toNat / q.toNat ≤ y.toNat) :
    (y - k * x / q).toNat = y.toNat - k.toNat * x.toNat / q.toNat := by
  have hdiv : (k * x / q).toNat = k.toNat * x.toNat / q.toNat := by
    rw [UInt32.toNat_div, toNat_mul32 h]
  rw [UInt32.toNat_sub_of_le _ _ (by rw [UInt32.le_iff_toNat_le, hdiv]; exact hle), hdiv]

/-- The year of a century and a year of it: a year before 0 wraps twice, and ends up
far above 9999. -/
theorem toNat_year {b d m : UInt32} (hb : b.toNat ≤ 30000) (hd : d.toNat ≤ 99) :
    (100 * b + d - 4800 + m / 10).toUInt16.toNat
      = (100 * b.toNat + d.toNat + m.toNat / 10 + (65536 - 4800)) % 65536 := by
  have hdiv : (m / 10).toNat = m.toNat / 10 := UInt32.toNat_div m 10
  have hmul : (100 * b).toNat = 100 * b.toNat :=
    toNat_mul32 (x := 100) (y := b) (by show 100 * b.toNat < _; omega)
  have hadd : (100 * b + d).toNat = 100 * b.toNat + d.toNat := by
    rw [toNat_add32 (by rw [hmul]; omega), hmul]
  rw [UInt32.toNat_toUInt16, UInt32.toNat_add, UInt32.toNat_sub, hadd, hdiv]
  show (((2 ^ 32 - 4800 + (100 * b.toNat + d.toNat)) % 2 ^ 32 + m.toNat / 10) % 2 ^ 32) % 2 ^ 16 = _
  omega

theorem toNat_month {m : UInt32} (hm : m.toNat ≤ 11) :
    (m + 3 - 12 * (m / 10)).toUInt16.toNat = m.toNat + 3 - 12 * (m.toNat / 10) := by
  have hdiv : (m / 10).toNat = m.toNat / 10 := UInt32.toNat_div m 10
  have hadd : (m + 3).toNat = m.toNat + 3 :=
    toNat_add32 (x := m) (y := 3) (by show m.toNat + 3 < _; omega)
  have hmul : (12 * (m / 10)).toNat = 12 * (m.toNat / 10) := by
    rw [toNat_mul32 (by rw [hdiv]; show 12 * (m.toNat / 10) < _; omega), hdiv]
    rfl
  have hle : 12 * (m / 10) ≤ m + 3 := by
    rw [UInt32.le_iff_toNat_le, hadd, hmul]
    omega
  rw [UInt32.toNat_toUInt16, UInt32.toNat_sub_of_le _ _ hle, hadd, hmul,
    Nat.mod_eq_of_lt (by omega)]

theorem toNat_day {e m : UInt32} (he : e.toNat ≤ 365) (hm : (153 * m.toNat + 2) / 5 ≤ e.toNat) :
    (e - (153 * m + 2) / 5 + 1).toUInt16.toNat = e.toNat - (153 * m.toNat + 2) / 5 + 1 := by
  have hdiv : ((153 * m + 2) / 5).toNat = (153 * m.toNat + 2) / 5 :=
    toNat_scaled (k := 153) (x := m) (r := 2) (q := 5) (by show 153 * m.toNat + 2 < _; omega)
  have hsub : (e - (153 * m + 2) / 5).toNat = e.toNat - (153 * m.toNat + 2) / 5 := by
    rw [UInt32.toNat_sub_of_le _ _ (by rw [UInt32.le_iff_toNat_le, hdiv]; exact hm), hdiv]
  have hadd : (e - (153 * m + 2) / 5 + 1).toNat = e.toNat - (153 * m.toNat + 2) / 5 + 1 := by
    rw [toNat_add32 (by rw [hsub]; show _ + 1 < _; omega), hsub]
    rfl
  rw [UInt32.toNat_toUInt16, hadd, Nat.mod_eq_of_lt (by omega)]

/-! ### Agreement with the calendar -/

/-- The calendar's divisions where they are of natural numbers. -/
theorem ofDays_nat {n : Int} {a b c d e m : Nat} (ha : (a : Int) = n + 32044)
    (hb : b = (4 * a + 3) / 146097) (hc : c = a - 146097 * b / 4) (hd : d = (4 * c + 3) / 1461)
    (he : e = c - 1461 * d / 4) (hm : m = (5 * e + 2) / 153) :
    Civil.ofDays (n - epochDay) =
      ⟨(100 * b + d + m / 10 : Nat) - 4800, (m + 3 - 12 * (m / 10) : Nat),
        (e - (153 * m + 2) / 5 + 1 : Nat)⟩ := by
  have hoffset : n - epochDay + Civil.epochOffset = a := by
    simp only [epochDay, Civil.epochOffset]
    omega
  have hb' : (4 * (a : Int) + 3) / 146097 = b := by omega
  have hc' : (a : Int) - 146097 * b / 4 = c := by omega
  have hd' : (4 * (c : Int) + 3) / 1461 = d := by omega
  have he' : (c : Int) - 1461 * d / 4 = e := by omega
  have hm' : (5 * (e : Int) + 2) / 153 = m := by omega
  simp only [Civil.ofDays, hoffset, hb', hc', hd', he', hm', Civil.mk.injEq]
  omega

/-- The range checks, on a year that is counted from -4800 and narrowed. -/
theorem Ymd.map_toCivil_make {year month day : Nat} (hyear : year < 60000)
    (hmonth : 1 ≤ month ∧ month ≤ 12) (hday : 1 ≤ day ∧ day ≤ 31) :
    (Ymd.make ((year + (65536 - 4800)) % 65536) month day).map Ymd.toCivil
      = if 1400 ≤ (year : Int) - 4800 ∧ (year : Int) - 4800 ≤ 9999 then
          some ⟨(year : Int) - 4800, month, day⟩
        else none := by
  by_cases hrange : 1400 ≤ (year : Int) - 4800 ∧ (year : Int) - 4800 ≤ 9999
  · have hnarrow : (year + (65536 - 4800)) % 65536 = year - 4800 := by omega
    have hcast : ((year - 4800 : Nat) : Int) = (year : Int) - 4800 := by omega
    rw [hnarrow, if_pos hrange, Ymd.make, dif_pos ⟨by omega, hmonth, hday⟩, Option.map_some,
      Ymd.toCivil, hcast]
  · rw [if_neg hrange, Ymd.make, dif_neg (by omega), Option.map_none]

/-- **Boost's calendar is the calendar**, on the years that it supports. A day number that
has wrapped around below zero comes back with the first addition. -/
theorem fromDayNumber_eq {n : Int} (hlo : -32044 ≤ n) (hhi : n < 2 ^ 24) :
    (fromDayNumber (.ofInt n)).map Ymd.toCivil
      = if 1400 ≤ (Civil.ofDays (n - epochDay)).year ∧
        (Civil.ofDays (n - epochDay)).year ≤ 9999 then
          some (Civil.ofDays (n - epochDay))
        else none := by
  have hmonth := Civil.month_ofDays (n - epochDay)
  have hday := Civil.day_ofDays (n - epochDay)
  unfold fromDayNumber
  extract_lets a b c d e m
  have ha' : a = .ofInt (n + 32044) := by rw [UInt32.ofInt_add n 32044]; rfl
  have ha : (a.toNat : Int) = n + 32044 := by rw [ha', toNat_ofInt32 (by omega) (by omega)]
  -- from here on, no intermediate result leaves the 32 bits
  have hb : b.toNat = (4 * a.toNat + 3) / 146097 :=
    toNat_scaled (k := 4) (x := a) (r := 3) (q := 146097) (by show 4 * a.toNat + 3 < _; omega)
  have hc : c.toNat = a.toNat - 146097 * b.toNat / 4 :=
    toNat_rest (k := 146097) (x := b) (q := 4) (by show 146097 * b.toNat < _; omega)
      (by show 146097 * b.toNat / 4 ≤ _; omega)
  have hc' : c.toNat ≤ 36524 := by omega
  have hd : d.toNat = (4 * c.toNat + 3) / 1461 :=
    toNat_scaled (k := 4) (x := c) (r := 3) (q := 1461) (by show 4 * c.toNat + 3 < _; omega)
  have he : e.toNat = c.toNat - 1461 * d.toNat / 4 :=
    toNat_rest (k := 1461) (x := d) (q := 4) (by show 1461 * d.toNat < _; omega)
      (by show 1461 * d.toNat / 4 ≤ _; omega)
  have he' : e.toNat ≤ 365 := by omega
  have hm : m.toNat = (5 * e.toNat + 2) / 153 :=
    toNat_scaled (k := 5) (x := e) (r := 2) (q := 153) (by show 5 * e.toNat + 2 < _; omega)
  rw [ofDays_nat ha hb hc hd he hm] at hmonth hday ⊢
  rw [toNat_year (by omega) (by omega), toNat_month (by omega), toNat_day he' (by omega)]
  dsimp only at hmonth hday ⊢
  have hyears : 100 * b.toNat + d.toNat + m.toNat / 10 < 60000 := by omega
  exact Ymd.map_toCivil_make hyears (by omega) (by omega)

theorem Ymd.make_of_lt_year {year : Nat} (h : 9999 < year) (month day : Nat) :
    Ymd.make year month day = none :=
  dif_neg fun hrange => by omega

/-- A day number at the top of the 32 bits, which wraps in the products. The months of its
year come out in the millions, and with the years that they carry the year has no four
digits. -/
theorem fromDayNumber_wrapped {n : UInt32} (h : 2 ^ 32 - 2 ^ 24 < n.toNat)
    (h' : n.toNat + 32044 < 2 ^ 32) : fromDayNumber n = none := by
  unfold fromDayNumber
  extract_lets a b c d e m
  have ha : a.toNat = n.toNat + 32044 := toNat_add32 (x := n) (y := 32044) h'
  have hb : b.toNat = (4 * a.toNat + 3 - 3 * 2 ^ 32) / 146097 := by
    show ((4 * a + 3) / 146097).toNat = _
    rw [UInt32.toNat_div, UInt32.toNat_add, UInt32.toNat_mul]
    show ((4 * a.toNat) % 2 ^ 32 + 3) % 2 ^ 32 / 146097 = _
    omega
  have hc : c.toNat = a.toNat - 146097 * b.toNat / 4 :=
    toNat_rest (k := 146097) (x := b) (q := 4) (by show 146097 * b.toNat < _; omega)
      (by show 146097 * b.toNat / 4 ≤ _; omega)
  -- three quarters of the range are left over, which the next product loses again
  obtain ⟨s, hs, hsle⟩ : ∃ s, c.toNat = 3 * 2 ^ 30 + s ∧ s ≤ 36524 :=
    ⟨c.toNat - 3 * 2 ^ 30, by omega, by omega⟩
  have hd : d.toNat = (4 * s + 3) / 1461 := by
    show ((4 * c + 3) / 1461).toNat = _
    rw [UInt32.toNat_div, UInt32.toNat_add, UInt32.toNat_mul]
    show ((4 * c.toNat) % 2 ^ 32 + 3) % 2 ^ 32 / 1461 = _
    omega
  have he : e.toNat = c.toNat - 1461 * d.toNat / 4 :=
    toNat_rest (k := 1461) (x := d) (q := 4) (by show 1461 * d.toNat < _; omega)
      (by show 1461 * d.toNat / 4 ≤ _; omega)
  have hm : m.toNat = (5 * e.toNat + 2 - 3 * 2 ^ 32) / 153 := by
    show ((5 * e + 2) / 153).toNat = _
    rw [UInt32.toNat_div, UInt32.toNat_add, UInt32.toNat_mul]
    show ((5 * e.toNat) % 2 ^ 32 + 2) % 2 ^ 32 / 153 = _
    omega
  apply Ymd.make_of_lt_year
  have hb' : 28938 ≤ b.toNat ∧ b.toNat ≤ 29398 := by omega
  have hd' : d.toNat ≤ 99 := by omega
  have he' : 3 * 2 ^ 30 ≤ e.toNat ∧ e.toNat ≤ 3 * 2 ^ 30 + 366 := by omega
  have hm' : 21053761 ≤ m.toNat ∧ m.toNat ≤ 21053773 := by omega
  rw [toNat_year (by omega) hd']
  have hyear : 4999176 ≤ 100 * b.toNat + d.toNat + m.toNat / 10 ∧
      100 * b.toNat + d.toNat + m.toNat / 10 ≤ 5045276 := by omega
  generalize 100 * b.toNat + d.toNat + m.toNat / 10 = year at hyear
  omega

theorem Ymd.dayNumber_eq (ymd : Ymd) :
    (ymd.dayNumber.toNat : Int) = ymd.toCivil.toDays + epochDay := by
  obtain ⟨year, month, day, hyear, hmonth, hday⟩ := ymd
  simp only [Ymd.dayNumber, Ymd.toCivil, Civil.toDays, Civil.epochOffset, epochDay]
  have ha : (14 - (month : Int)) / 12 = ((14 - month) / 12 : Nat) := by omega
  rw [ha]
  generalize hn : (14 - month) / 12 = a at *
  rw [UInt32.toNat_ofNat_of_lt' (by show _ < 2 ^ 32; omega)]
  omega

/-! ### The supported days -/

/-- 1400-01-01. -/
def minDay : Int := -208188

/-- 9999-12-31. -/
def maxDay : Int := 2932896

theorem toDays_range {date : Civil} (hmonth : 1 ≤ date.month ∧ date.month ≤ 12)
    (hday : 1 ≤ date.day ∧ date.day ≤ 31) :
    (1400 ≤ date.year ∧ date.year ≤ 9999) ↔ (minDay ≤ date.toDays ∧ date.toDays ≤ maxDay) := by
  have hfirst := Civil.le_year_iff hmonth hday 1400
  have hlast := Civil.le_year_iff hmonth hday 10000
  have h₁ : Civil.toDays ⟨1400, 1, 1⟩ = minDay := by decide
  have h₂ : Civil.toDays ⟨10000, 1, 1⟩ = maxDay + 1 := by decide
  omega

theorem year_ofDays (n : Int) :
    (1400 ≤ (Civil.ofDays n).year ∧ (Civil.ofDays n).year ≤ 9999) ↔ (minDay ≤ n ∧ n ≤ maxDay) := by
  rw [toDays_range (Civil.month_ofDays n) (Civil.day_ofDays n), Civil.toDays_ofDays]

/-- The date of a day. -/
def Date.ofDay (n : Int) : Date := ⟨.ofInt (n + epochDay)⟩

theorem Date.toNat_days_ofDay {n : Int} (h : 0 ≤ n + epochDay ∧ n + epochDay < 2 ^ 24) :
    ((Date.ofDay n).days.toNat : Int) = n + epochDay := by
  rw [Date.ofDay, toNat_ofInt32 h.1 (by omega)]

/-- The bounds of the supported days, in Boost's day numbers. -/
theorem dayNumber_range {n : Int} (h : minDay ≤ n ∧ n ≤ maxDay) :
    0 ≤ n + epochDay ∧ n + epochDay < 2 ^ 24 := by
  simp only [minDay, maxDay, epochDay] at h ⊢
  omega

theorem Date.days_ofDay_lt {m n : Int} (hm : minDay ≤ m ∧ m ≤ maxDay)
    (hn : minDay ≤ n ∧ n ≤ maxDay) :
    (Date.ofDay m).days < (Date.ofDay n).days ↔ m < n := by
  have hm' := Date.toNat_days_ofDay (dayNumber_range hm)
  have hn' := Date.toNat_days_ofDay (dayNumber_range hn)
  rw [UInt32.lt_iff_toNat_lt]
  omega

/-- The components of the date of a supported day. -/
theorem Date.ymd_ofDay {n : Int} (h : minDay ≤ n ∧ n ≤ maxDay) :
    ∃ ymd, (Date.ofDay n).ymd = some ymd ∧ ymd.toCivil = Civil.ofDays n := by
  have hbounds := dayNumber_range h
  have hymd := fromDayNumber_eq (n := n + epochDay) (by omega) hbounds.2
  rw [Int.add_sub_cancel, if_pos ((year_ofDays n).mpr h)] at hymd
  exact Option.map_eq_some_iff.mp hymd

theorem extractSeconds_ofDay {n : Int} (h : minDay ≤ n ∧ n ≤ maxDay) :
    extractSeconds (Date.ofDay n) = n * 86400 := by
  rw [extractSeconds, Date.toNat_days_ofDay (dayNumber_range h), Int.add_sub_cancel]

theorem makeTimespec_ofDay {n : Int} (h : minDay ≤ n ∧ n ≤ maxDay) :
    makeTimespec (Date.ofDay n) = ⟨n * 86400, 0⟩ := by
  rw [← extractSeconds_ofDay h]
  rfl

/-- The date that `extract_date` keeps for given components is one of a supported
day. -/
theorem Ymd.dayNumber_eq_ofDay (ymd : Ymd) :
    Date.mk ymd.dayNumber = Date.ofDay ymd.toCivil.toDays ∧
      minDay ≤ ymd.toCivil.toDays ∧ ymd.toCivil.toDays ≤ maxDay := by
  have hrange : minDay ≤ ymd.toCivil.toDays ∧ ymd.toCivil.toDays ≤ maxDay := by
    have hmonth := ymd.month_range
    have hday := ymd.day_range
    have hyear := ymd.year_range
    refine (toDays_range ?_ ?_).mp ?_
    all_goals
      simp only [Ymd.toCivil]
      omega
  refine ⟨?_, hrange⟩
  have heq := (Date.toNat_days_ofDay (dayNumber_range hrange)).trans ymd.dayNumber_eq.symm
  rw [Date.mk.injEq, ← UInt32.toNat_inj]
  exact_mod_cast heq.symm

/-- A day number below zero is no supported day, although it wraps around. -/
theorem fromDayNumber_of_nonpos {n : Int} (hlo : -2 ^ 24 < n) (h0 : n ≤ 0) :
    fromDayNumber (.ofInt n) = none := by
  by_cases hwrap : n < -32044
  · have hnat := toNat_ofInt32 (n := n + 2 ^ 32) (by omega) (by omega)
    have hmod : UInt32.ofInt (n + 2 ^ 32) = .ofInt n := by
      rw [UInt32.ofInt, UInt32.ofInt, Int.add_emod_right]
    rw [hmod] at hnat
    exact fromDayNumber_wrapped (by omega) (by omega)
  · have hymd := fromDayNumber_eq (n := n) (by omega) (by omega)
    have hyear : ¬ (minDay ≤ n - epochDay ∧ n - epochDay ≤ maxDay) := by
      simp only [minDay, epochDay]
      omega
    rw [if_neg (mt (year_ofDays _).mp hyear)] at hymd
    exact Option.map_eq_none_iff.mp hymd

/-- **The date of an instant** is the date of its UTC day, if that is a supported one. -/
theorem extractDate_eq {ts : Timespec} (hlo : -2 ^ 40 < ts.sec) (hhi : ts.sec < 2 ^ 40) :
    extractDate ts = if minDay ≤ ts.sec / 86400 ∧ ts.sec / 86400 ≤ maxDay then
      some (Date.ofDay (ts.sec / 86400)) else none := by
  rw [extractDate]
  by_cases h0 : 0 ≤ epochDay * 86400 + ts.sec
  · -- from day 0 on, truncating is rounding down
    have hcount : (epochDay * 86400 + ts.sec).tdiv 86400 = ts.sec / 86400 + epochDay := by
      rw [Int.tdiv_eq_ediv_of_nonneg h0]
      simp only [epochDay] at h0 ⊢
      omega
    have hbounds : 0 ≤ ts.sec / 86400 + epochDay ∧ ts.sec / 86400 + epochDay < 2 ^ 24 := by
      simp only [epochDay] at h0 ⊢
      omega
    have hymd := fromDayNumber_eq (n := ts.sec / 86400 + epochDay) (by omega) hbounds.2
    rw [Int.add_sub_cancel] at hymd
    rw [hcount]
    by_cases hrange : minDay ≤ ts.sec / 86400 ∧ ts.sec / 86400 ≤ maxDay
    · rw [if_pos ((year_ofDays _).mpr hrange)] at hymd
      obtain ⟨ymd, hsome, hcivil⟩ := Option.map_eq_some_iff.mp hymd
      have hdate := ymd.dayNumber_eq_ofDay.1
      rw [hcivil, Civil.toDays_ofDays] at hdate
      rw [if_pos hrange, hsome, Option.map_some, hdate]
    · rw [if_neg (mt (year_ofDays _).mp hrange)] at hymd
      rw [if_neg hrange, Option.map_eq_none_iff.mp hymd, Option.map_none]
  · -- before day 0 there is no supported day
    have hcount : -2 ^ 24 < (epochDay * 86400 + ts.sec).tdiv 86400 ∧
        (epochDay * 86400 + ts.sec).tdiv 86400 ≤ 0 := by
      have hneg : (epochDay * 86400 + ts.sec).tdiv 86400
          = -((-(epochDay * 86400 + ts.sec)) / 86400) := by
        rw [← Int.tdiv_eq_ediv_of_nonneg (by omega), Int.neg_tdiv, Int.neg_neg]
      rw [hneg]
      simp only [epochDay] at h0 ⊢
      omega
    have hrange : ¬ (minDay ≤ ts.sec / 86400 ∧ ts.sec / 86400 ≤ maxDay) := by
      simp only [minDay, epochDay] at h0 ⊢
      omega
    rw [if_neg hrange, fromDayNumber_of_nonpos hcount.1 hcount.2, Option.map_none]

end TradingDesk.Utils
