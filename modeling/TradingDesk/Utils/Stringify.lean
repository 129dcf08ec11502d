import TradingDesk.Core.Calendar
import TradingDesk.Core.Decimal
import TradingDesk.Utils.SystemClock

/-!
# TradingDesk.Utils.Stringify

**Instants as text** (`stringify.cpp`): `YYYY-MM-DDTHH:MM:SS` with a `Z` behind it,
written with Karma's right-aligned integers and read with Qi's fixed-width ones. What is
written is a number of seconds since the epoch, what is read becomes a time point of the
clock; the reader's failure value is the epoch itself. `gmtime` and `timegm` are the
proleptic Gregorian calendar's.
-/

namespace TradingDesk.Utils

open TradingDesk.Core

/-! ### Broken-down time -/

/-- `std::tm`, the fields that are written and read here. -/
@[ext] structure Tm where
  /-- Years after 1900. -/
  year : Int
  /-- Months after January. -/
  mon : Int
  mday : Int
  hour : Int
  min : Int
  sec : Int
  deriving Repr, DecidableEq

/-- `gmtime_r`. -/
def gmtime (t : Int) : Tm :=
  let date := Civil.ofDays (t / 86400)
  ⟨date.year - 1900, date.month - 1, date.day, t % 86400 / 3600, t % 86400 / 60 % 60,
    t % 86400 % 60⟩

/-- `timegm`: fields outside their ranges carry over. -/
def timegm (tm : Tm) : Int :=
  Civil.toDays ⟨tm.year + 1900, tm.mon + 1, tm.mday⟩ * 86400 + tm.hour * 3600 + tm.min * 60 + tm.sec

theorem timegm_gmtime (t : Int) : timegm (gmtime t) = t := by
  have hdate : (⟨(Civil.ofDays (t / 86400)).year - 1900 + 1900,
      (Civil.ofDays (t / 86400)).month - 1 + 1, (Civil.ofDays (t / 86400)).day⟩ : Civil)
        = Civil.ofDays (t / 86400) := by
    simp only [Int.sub_add_cancel]
  simp only [gmtime, timegm, hdate, Civil.toDays_ofDays]
  omega

/-! ### Writing -/

/-- `to_iso_extended_string_utc`. -/
def toIsoExtendedStringUtc (t : Int) : List UInt8 :=
  let tm := gmtime t
  rightAlign 4 (intText (tm.year + 1900)) ++ ascii "-" ++ rightAlign 2 (intText (tm.mon + 1)) ++
    ascii "-" ++ rightAlign 2 (intText tm.mday) ++ ascii "T" ++ rightAlign 2 (intText tm.hour) ++
    ascii ":" ++ rightAlign 2 (intText tm.min) ++ ascii ":" ++ rightAlign 2 (intText tm.sec) ++
    ascii "Z"

/-! ### Reading -/

/-- The parser of one given character. -/
def charParser (c : Char) : List UInt8 → Option (List UInt8)
  | [] => none
  | b :: s => if b = c.toUInt8 then some s else none

/-- The grammar of `from_iso_extended_string_utc`. What is behind the seconds is not
looked at. -/
def parseTm (str : List UInt8) : Option Tm := do
  let (year, str) ← parseInt 4 str
  let str ← charParser '-' str
  let (mon, str) ← parseInt 2 str
  let str ← charParser '-' str
  let (mday, str) ← parseInt 2 str
  let str ← charParser 'T' str
  let (hour, str) ← parseInt 2 str
  let str ← charParser ':' str
  let (min, str) ← parseInt 2 str
  let str ← charParser ':' str
  let (sec, _) ← parseInt 2 str
  return ⟨year - 1900, mon - 1, mday, hour, min, sec⟩

/-- `from_iso_extended_string_utc`; 0 is `time_point()`. -/
def fromIsoExtendedStringUtc (clock : SystemClock) (str : List UInt8) : Int :=
  match parseTm str with
  | none => 0
  | some tm => clock.fromTimeT (timegm tm)

/-! ### Four-digit years -/

/-- The year of an instant is written with four digits and no sign. -/
def FourDigitYear (t : Int) : Prop :=
  0 ≤ (Civil.ofDays (t / 86400)).year ∧ (Civil.ofDays (t / 86400)).year ≤ 9999

/-- The digits of a date. -/
def dayText (date : Civil) : List UInt8 :=
  padDigits 4 date.year.toNat ++ '-'.toUInt8 :: (padDigits 2 date.month.toNat ++
    '-'.toUInt8 :: padDigits 2 date.day.toNat)

/-- The digits of a time of day, given in seconds. -/
def clockText (s : Int) : List UInt8 :=
  padDigits 2 (s / 3600).toNat ++ ':'.toUInt8 :: (padDigits 2 (s / 60 % 60).toNat ++
    ':'.toUInt8 :: (padDigits 2 (s % 60).toNat ++ ['Z'.toUInt8]))

@[simp] theorem length_dayText (date : Civil) : (dayText date).length = 10 := by
  simp [dayText]

theorem toIsoExtendedStringUtc_eq {t : Int} (h : FourDigitYear t) :
    toIsoExtendedStringUtc t
      = dayText (Civil.ofDays (t / 86400)) ++ 'T'.toUInt8 :: clockText (t % 86400) := by
  obtain ⟨hyear0, hyear⟩ := h
  have hmonth := Civil.month_ofDays (t / 86400)
  have hday := Civil.day_ofDays (t / 86400)
  have hdash : ascii "-" = ['-'.toUInt8] := rfl
  have hcolon : ascii ":" = [':'.toUInt8] := rfl
  have hT : ascii "T" = ['T'.toUInt8] := rfl
  have hZ : ascii "Z" = ['Z'.toUInt8] := rfl
  simp only [toIsoExtendedStringUtc, gmtime, dayText, clockText, Int.sub_add_cancel, hdash, hcolon,
    hT, hZ]
  rw [rightAlign_intText hyear0 (by omega) (by decide),
    rightAlign_intText (by omega) (by omega) (by decide),
    rightAlign_intText (by omega) (by omega) (by decide),
    rightAlign_intText (by omega) (by omega) (by decide),
    rightAlign_intText (by omega) (by omega) (by decide),
    rightAlign_intText (by omega) (by omega) (by decide)]
  simp only [List.append_assoc, List.cons_append, List.nil_append]

/-! ### Reading back -/

@[simp] theorem charParser_cons (c : Char) (s : List UInt8) :
    charParser c (c.toUInt8 :: s) = some s := by
  simp [charParser]

/-- Digits in the expected places are read, whatever is behind them. -/
theorem parseTm_digits {year month day hour min sec : Nat} (hyear : year < 10 ^ 4)
    (hmonth : month < 10 ^ 2) (hday : day < 10 ^ 2) (hhour : hour < 10 ^ 2) (hmin : min < 10 ^ 2)
    (hsec : sec < 10 ^ 2) (rest : List UInt8) :
    parseTm (padDigits 4 year ++ '-'.toUInt8 :: (padDigits 2 month ++ '-'.toUInt8 ::
        (padDigits 2 day ++ 'T'.toUInt8 :: (padDigits 2 hour ++ ':'.toUInt8 ::
          (padDigits 2 min ++ ':'.toUInt8 :: (padDigits 2 sec ++ rest))))))
      = some ⟨(year : Int) - 1900, (month : Int) - 1, day, hour, min, sec⟩ := by
  simp only [parseTm, parseInt_padDigits (w := 3) hyear, parseInt_padDigits (w := 1) hmonth,
    parseInt_padDigits (w := 1) hday, parseInt_padDigits (w := 1) hhour,
    parseInt_padDigits (w := 1) hmin, parseInt_padDigits (w := 1) hsec, charParser_cons,
    Option.bind_eq_bind, Option.bind_some, Option.pure_def]

/-- What was written is read as the fields it was written from; the reader stops in front of
the `Z`. -/
theorem parseTm_toIso {t : Int} (h : FourDigitYear t) :
    parseTm (toIsoExtendedStringUtc t) = some (gmtime t) := by
  obtain ⟨hyear0, hyear⟩ := id h
  have hmonth := Civil.month_ofDays (t / 86400)
  have hday := Civil.day_ofDays (t / 86400)
  rw [toIsoExtendedStringUtc_eq h, dayText, clockText]
  simp only [List.append_assoc, List.cons_append]
  rw [parseTm_digits (by omega) (by omega) (by omega) (by omega) (by omega) (by omega), gmtime]
  simp only [Option.some.injEq, Tm.mk.injEq]
  omega

theorem toIso_inj {t u : Int} (ht : FourDigitYear t) (hu : FourDigitYear u)
    (h : toIsoExtendedStringUtc t = toIsoExtendedStringUtc u) : t = u := by
  have hfields := congrArg parseTm h
  rw [parseTm_toIso ht, parseTm_toIso hu, Option.some.injEq] at hfields
  rw [← timegm_gmtime t, hfields, timegm_gmtime]

/-- **Text round trip.** -/
theorem fromIso_toIso (clock : SystemClock) {t : Int} (h : FourDigitYear t) :
    fromIsoExtendedStringUtc clock (toIsoExtendedStringUtc t) = clock.fromTimeT t := by
  rw [fromIsoExtendedStringUtc, parseTm_toIso h]
  exact congrArg clock.fromTimeT (timegm_gmtime t)

/-- What can be read at all is within ten thousand years and a hundred months. -/
theorem timegm_bounds {str : List UInt8} {tm : Tm} (h : parseTm str = some tm) :
    -2 ^ 40 < timegm tm ∧ timegm tm < 2 ^ 40 := by
  simp only [parseTm, Option.bind_eq_bind, Option.bind_eq_some_iff, Option.pure_def] at h
  obtain ⟨⟨year, _⟩, hyear, _, -, ⟨mon, _⟩, hmon, _, -, ⟨mday, _⟩, hmday, _, -, ⟨hour, _⟩, hhour,
    _, -, ⟨min, _⟩, hmin, _, -, ⟨sec, _⟩, hsec, htm⟩ := h
  cases htm
  have := parseInt_bounds hyear
  have := parseInt_bounds hmon
  have := parseInt_bounds hmday
  have := parseInt_bounds hhour
  have := parseInt_bounds hmin
  have := parseInt_bounds hsec
  simp only [timegm, Civil.toDays, Civil.epochOffset]
  omega

/-- The reader fails on what it cannot parse, and on the epoch. -/
theorem fromIso_eq_zero_iff {clock : SystemClock} {str : List UInt8} :
    fromIsoExtendedStringUtc clock str = 0 ↔ ∀ tm, parseTm str = some tm → timegm tm = 0 := by
  rw [fromIsoExtendedStringUtc]
  cases hread : parseTm str with
  | none => simp
  | some tm => simp [SystemClock.fromTimeT_eq_zero_iff (timegm_bounds hread)]

/-! ### Comparing -/

theorem clockText_lt {a b : Int} (ha : 0 ≤ a ∧ a < 86400) (hb : 0 ≤ b ∧ b < 86400) :
    clockText a < clockText b ↔ a < b := by
  have hdigits : ∀ s : Int, 0 ≤ s ∧ s < 86400 → (s / 3600).toNat % 10 ^ 2 = (s / 3600).toNat ∧
      (s / 60 % 60).toNat % 10 ^ 2 = (s / 60 % 60).toNat ∧
      (s % 60).toNat % 10 ^ 2 = (s % 60).toNat := by
    intro s hs
    refine ⟨Nat.mod_eq_of_lt ?_, Nat.mod_eq_of_lt ?_, Nat.mod_eq_of_lt ?_⟩ <;> omega
  simp only [clockText, padDigits_append_lt, List.cons_lt_cons_self, List.lt_irrefl, and_false,
    or_false, hdigits a ha, hdigits b hb]
  omega

/-- **Within a day**, texts compare as the instants do. -/
theorem toIso_lt_toIso {t u : Int} (ht : FourDigitYear t) (hu : FourDigitYear u)
    (hday : t / 86400 = u / 86400) :
    toIsoExtendedStringUtc t < toIsoExtendedStringUtc u ↔ t < u := by
  rw [toIsoExtendedStringUtc_eq ht, toIsoExtendedStringUtc_eq hu, hday, append_lt_append_left,
    List.cons_lt_cons_self, clockText_lt (by omega) (by omega)]
  omega

theorem dayText_inj {date date' : Civil} (hyear : 0 ≤ date.year ∧ date.year ≤ 9999)
    (hyear' : 0 ≤ date'.year ∧ date'.year ≤ 9999) (hmonth : 1 ≤ date.month ∧ date.month ≤ 12)
    (hmonth' : 1 ≤ date'.month ∧ date'.month ≤ 12) (hday : 1 ≤ date.day ∧ date.day ≤ 31)
    (hday' : 1 ≤ date'.day ∧ date'.day ≤ 31) (h : dayText date = dayText date') : date = date' := by
  obtain ⟨hy, hrest⟩ := List.append_inj h (by simp)
  obtain ⟨hm, hd⟩ := List.append_inj (List.cons.inj hrest).2 (by simp)
  have hy := padDigits_inj (w := 4) (by omega) (by omega) hy
  have hm := padDigits_inj (w := 2) (by omega) (by omega) hm
  have hd := padDigits_inj (w := 2) (by omega) (by omega) (List.cons.inj hd).2
  ext <;> omega

/-- **The day of a text** is what its first ten characters say. -/
theorem dayText_isPrefix_toIso {n t : Int} (hn : FourDigitYear (n * 86400)) (ht : FourDigitYear t) :
    dayText (Civil.ofDays n) ++ ['T'.toUInt8] <+: toIsoExtendedStringUtc t ↔ t / 86400 = n := by
  rw [toIsoExtendedStringUtc_eq ht]
  constructor
  · intro hprefix
    obtain ⟨rest, hrest⟩ := hprefix
    rw [List.append_assoc] at hrest
    obtain ⟨hdate, -⟩ := List.append_inj hrest (by simp)
    rw [FourDigitYear, Int.mul_ediv_cancel _ (by decide)] at hn
    exact (Civil.ofDays_injective (dayText_inj hn ht (Civil.month_ofDays _) (Civil.month_ofDays _)
      (Civil.day_ofDays _) (Civil.day_ofDays _) hdate)).symm
  · intro hday
    rw [hday]
    exact ⟨clockText (t % 86400), by simp⟩

theorem underscore_notMem_toIso {t : Int} (ht : FourDigitYear t) :
    '_'.toUInt8 ∉ toIsoExtendedStringUtc t := by
  have hdigits : ∀ w n, '_'.toUInt8 ∉ padDigits w n := notMem_padDigits (by decide)
  rw [toIsoExtendedStringUtc_eq ht, dayText, clockText]
  simp only [List.mem_append, List.mem_cons, hdigits, false_or, List.not_mem_nil, or_false]
  decide

end TradingDesk.Utils
