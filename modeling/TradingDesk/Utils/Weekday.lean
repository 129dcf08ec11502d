import TradingDesk.Utils.Gregorian

/-!
# TradingDesk.Utils.Weekday

**Days of the week** (Boost's `gregorian_calendar.ipp`, `greg_date.hpp` and
`date_iterator.hpp`): the congruence that computes the day of the week of a date, the
dates of a year, and the iterator over days. On the supported days the congruence is
the position of the day in a week that began on a Sunday.
-/

namespace TradingDesk.Utils

open TradingDesk.Core (Civil)

/-! ### Dates -/

/-- `is_leap_year`. -/
def isLeapYear (year : Nat) : Bool := year % 4 = 0 ∧ (year % 100 ≠ 0 ∨ year % 400 = 0)

/-- `end_of_month_day`. -/
def endOfMonthDay (year month : Nat) : Nat :=
  match month with
  | 2 => if isLeapYear year then 29 else 28
  | 4 | 6 | 9 | 11 => 30
  | _ => 31

/-- `date(y, m, d)`; `none` is a range exception. -/
def Date.make (year month day : Nat) : Option Date :=
  match Ymd.make year month day with
  | none => none
  | some ymd => if endOfMonthDay year month < day then none else some ⟨ymd.dayNumber⟩

/-- `operator++` of a `day_iterator`: the day number is not checked. -/
def Date.next (date : Date) : Date := ⟨date.days + 1⟩

/-- `gregorian_calendar_base::day_of_week`: 0 is Sunday. -/
def Ymd.dayOfWeek (ymd : Ymd) : Nat :=
  let a := (14 - ymd.month) / 12
  let y := ymd.year - a
  let m := ymd.month + 12 * a - 2
  (ymd.day + y + y / 4 - y / 100 + y / 400 + 31 * m / 12) % 7

/-- `date::day_of_week`; `none` is the range exception of the components. -/
def Date.dayOfWeek (date : Date) : Option Nat := date.ymd.map Ymd.dayOfWeek

/-! ### Agreement with the calendar -/

/-- The months in front of a month counted from March, in days and in the terms of the
congruence. -/
theorem months_mod_seven {m : Nat} (h : m < 12) :
    (31 * (m + 1) / 12 + 5) % 7 = (153 * m + 2) / 5 % 7 := by
  revert m
  decide

/-- Day 0 is a Thursday. -/
theorem Ymd.dayOfWeek_eq (ymd : Ymd) :
    (ymd.dayOfWeek : Int) = (ymd.toCivil.toDays + 4) % 7 := by
  obtain ⟨year, month, day, hyear, hmonth, hday⟩ := ymd
  simp only [Ymd.dayOfWeek, Ymd.toCivil, Civil.toDays, Civil.epochOffset]
  have ha : (14 - (month : Int)) / 12 = ((14 - month) / 12 : Nat) := by omega
  rw [ha]
  -- the year and the month that count from March
  obtain ⟨y, hy⟩ : ∃ y, year = y + (14 - month) / 12 := ⟨year - (14 - month) / 12, by omega⟩
  obtain ⟨m, hm⟩ : ∃ m, month + 12 * ((14 - month) / 12) = m + 3 :=
    ⟨month + 12 * ((14 - month) / 12) - 3, by omega⟩
  have hmonths := months_mod_seven (m := m) (by omega)
  generalize (14 - month) / 12 = a at *
  subst hy
  have hyear' : ((y + a : Nat) : Int) + 4800 - a = y + 4800 := by omega
  have hmonth' : (month : Int) + 12 * a - 3 = m := by omega
  have hm' : month + 12 * a - 2 = m + 1 := by omega
  rw [Nat.add_sub_cancel, hm', hyear', hmonth']
  -- twelve whole cycles of 400 years lie before the year 0
  have h₄ : ((y : Int) + 4800) / 4 = (y / 4 : Nat) + 1200 := by omega
  have h₁₀₀ : ((y : Int) + 4800) / 100 = (y / 100 : Nat) + 48 := by omega
  have h₄₀₀ : ((y : Int) + 4800) / 400 = (y / 400 : Nat) + 12 := by omega
  have hcenturies : y / 100 ≤ y / 4 := by omega
  have hdays : (153 * (m : Int) + 2) / 5 = ((153 * m + 2) / 5 : Nat) := by omega
  rw [h₄, h₁₀₀, h₄₀₀, hdays]
  clear h₄ h₁₀₀ h₄₀₀ hdays
  generalize y / 4 = q₄ at *
  generalize y / 100 = q₁₀₀ at *
  generalize y / 400 = q₄₀₀ at *
  generalize (153 * m + 2) / 5 = u at *
  generalize 31 * (m + 1) / 12 = v at *
  omega

theorem Date.dayOfWeek_ofDay {n : Int} (h : minDay ≤ n ∧ n ≤ maxDay) :
    (Date.ofDay n).dayOfWeek = some ((n + 4) % 7).toNat := by
  obtain ⟨ymd, hymd, hcivil⟩ := Date.ymd_ofDay h
  have hdow := ymd.dayOfWeek_eq
  rw [hcivil, Civil.toDays_ofDays] at hdow
  rw [Date.dayOfWeek, hymd, Option.map_some, ← hdow, Int.toNat_natCast]

theorem Date.dayOfWeek_ofDay_of_lt {n : Int} (h : maxDay < n) (hn : n + epochDay < 2 ^ 24) :
    (Date.ofDay n).dayOfWeek = none := by
  have h0 : -32044 ≤ n + epochDay := by
    simp only [maxDay, epochDay] at h ⊢
    omega
  have hymd := fromDayNumber_eq h0 hn
  rw [Int.add_sub_cancel, if_neg (by rw [year_ofDays]; omega), Option.map_eq_none_iff] at hymd
  rw [Date.dayOfWeek, Date.ymd, Date.ofDay, hymd, Option.map_none]

theorem Date.next_ofDay (n : Int) : (Date.ofDay n).next = Date.ofDay (n + 1) := by
  have hone : n + 1 + epochDay = n + epochDay + 1 := by omega
  rw [Date.next, Date.ofDay, Date.ofDay, hone, UInt32.ofInt_add (n + epochDay) 1]
  rfl

theorem Date.make_firstOfYear (year : Nat) :
    Date.make year 1 1 = if 1400 ≤ year ∧ year ≤ 9999 then
      some (Date.ofDay (Civil.toDays ⟨year, 1, 1⟩)) else none := by
  by_cases h : 1400 ≤ year ∧ year ≤ 9999
  · have hymd : Ymd.make year 1 1 = some ⟨year, 1, 1, h, by decide, by decide⟩ :=
      dif_pos ⟨h, by decide, by decide⟩
    rw [if_pos h, Date.make, hymd]
    exact congrArg some (Ymd.dayNumber_eq_ofDay _).1
  · have hymd : Ymd.make year 1 1 = none := dif_neg fun hc => h hc.1
    rw [if_neg h, Date.make, hymd]

end TradingDesk.Utils
