import TradingDesk.Utils.Stringify

/-!
# TradingDesk.Utils.IsoText

**Which texts are instants.** `isoText` is the text of a date and a time of day, as the
comments of the reader give it: `YYYY-MM-DD`, `T`, `HH:MM:SS`. The writer writes it for
every instant of a four-digit year, and the reader reads it wherever it finds it. What
the reader does with the text of a date that does not exist is up to `timegm`, which
carries over; so what was read is written as it was read exactly if the date exists.
-/

namespace TradingDesk.Utils

open TradingDesk.Core

/-- The text of a date and a time of day. -/
def isoText (date : Civil) (hour min sec : Nat) : List UInt8 :=
  dayText date ++ 'T'.toUInt8 :: (padDigits 2 hour ++ ':'.toUInt8 ::
    (padDigits 2 min ++ ':'.toUInt8 :: padDigits 2 sec))

@[simp] theorem length_isoText (date : Civil) (hour min sec : Nat) :
    (isoText date hour min sec).length = 19 := by
  simp [isoText]

/-- Every field has as many digits as the text gives it. -/
structure IsoDigits (date : Civil) (hour min sec : Nat) : Prop where
  year : 0 ≤ date.year ∧ date.year < 10 ^ 4
  month : 0 ≤ date.month ∧ date.month < 10 ^ 2
  day : 0 ≤ date.day ∧ date.day < 10 ^ 2
  hour : hour < 10 ^ 2
  min : min < 10 ^ 2
  sec : sec < 10 ^ 2

/-- The date and the time of day exist, in a four-digit year. -/
structure IsInstant (date : Civil) (hour min sec : Nat) : Prop where
  year : 0 ≤ date.year ∧ date.year ≤ 9999
  isDate : date.IsDate
  hour : hour < 24
  min : min < 60
  sec : sec < 60

theorem IsInstant.isoDigits {date : Civil} {hour min sec : Nat} (h : IsInstant date hour min sec) :
    IsoDigits date hour min sec := by
  obtain ⟨hyear, hdate, hhour, hmin, hsec⟩ := h
  have hmonth := hdate.month_range
  have hday := hdate.day_le
  constructor <;> omega

/-- Seconds since the epoch. -/
def instantOf (date : Civil) (hour min sec : Nat) : Int :=
  date.toDays * 86400 + hour * 3600 + min * 60 + sec

/-! ### Reading and writing -/

/-- The reader finds the fields in front of any rest. -/
theorem parseTm_isoText {date : Civil} {hour min sec : Nat} (h : IsoDigits date hour min sec)
    (rest : List UInt8) :
    parseTm (isoText date hour min sec ++ rest)
      = some ⟨date.year - 1900, date.month - 1, date.day, hour, min, sec⟩ := by
  obtain ⟨hyear, hmonth, hday, hhour, hmin, hsec⟩ := h
  simp only [isoText, dayText, List.append_assoc, List.cons_append]
  rw [parseTm_digits (by omega) (by omega) (by omega) hhour hmin hsec]
  simp only [Option.some.injEq, Tm.mk.injEq, and_true]
  omega

theorem fromIso_isoText (clock : SystemClock) {date : Civil} {hour min sec : Nat}
    (h : IsoDigits date hour min sec) (rest : List UInt8) :
    fromIsoExtendedStringUtc clock (isoText date hour min sec ++ rest)
      = clock.fromTimeT (instantOf date hour min sec) := by
  rw [fromIsoExtendedStringUtc, parseTm_isoText h]
  simp only [timegm, instantOf, Int.sub_add_cancel]

/-- The fields of an instant. -/
theorem toIso_eq_isoText {t : Int} (h : FourDigitYear t) :
    toIsoExtendedStringUtc t = isoText (Civil.ofDays (t / 86400)) (t % 86400 / 3600).toNat
      (t % 86400 / 60 % 60).toNat (t % 86400 % 60).toNat ++ ascii "Z" := by
  have hZ : ascii "Z" = ['Z'.toUInt8] := rfl
  rw [toIsoExtendedStringUtc_eq h, clockText, isoText, hZ]
  simp only [List.append_assoc, List.cons_append]

/-- The fields of an instant are those of an existing date and time of day. -/
theorem isInstant_of_fourDigitYear {t : Int} (h : FourDigitYear t) :
    IsInstant (Civil.ofDays (t / 86400)) (t % 86400 / 3600).toNat (t % 86400 / 60 % 60).toNat
      (t % 86400 % 60).toNat := by
  refine ⟨h, Civil.isDate_ofDays _, ?_, ?_, ?_⟩ <;> omega

theorem instantOf_gmtime (t : Int) :
    instantOf (Civil.ofDays (t / 86400)) (t % 86400 / 3600).toNat (t % 86400 / 60 % 60).toNat
      (t % 86400 % 60).toNat = t := by
  rw [instantOf, Civil.toDays_ofDays]
  omega

/-- An existing date and time of day are written as they are. -/
theorem toIso_instantOf {date : Civil} {hour min sec : Nat} (h : IsInstant date hour min sec) :
    toIsoExtendedStringUtc (instantOf date hour min sec)
      = isoText date hour min sec ++ ascii "Z" := by
  obtain ⟨hyear, hdate, hhour, hmin, hsec⟩ := h
  have hday : instantOf date hour min sec / 86400 = date.toDays := by
    simp only [instantOf]
    omega
  have hclock : instantOf date hour min sec % 86400 = hour * 3600 + min * 60 + sec := by
    simp only [instantOf]
    omega
  have hcivil := hdate.ofDays_toDays
  have hfour : FourDigitYear (instantOf date hour min sec) := by
    rw [FourDigitYear, hday, hcivil]
    exact hyear
  have hhour' : (((hour * 3600 + min * 60 + sec : Int)) / 3600).toNat = hour := by omega
  have hmin' : (((hour * 3600 + min * 60 + sec : Int)) / 60 % 60).toNat = min := by omega
  have hsec' : (((hour * 3600 + min * 60 + sec : Int)) % 60).toNat = sec := by omega
  rw [toIso_eq_isoText hfour, hday, hclock, hcivil, hhour', hmin', hsec']

/-- **Text round trip.** For every instant of a four-digit year, what was written is read as
the time point of that instant, from which a clock that represents the instant has its seconds
back. The reader stops in front of the `Z`, and would do so in front of any rest. -/
theorem iso_text_round_trip (clock : SystemClock) {t : Int} (h : FourDigitYear t) :
    fromIsoExtendedStringUtc clock (toIsoExtendedStringUtc t) = clock.fromTimeT t ∧
      (clock.toSeconds (clock.fromTimeT t) = t ↔ clock.Represents t) ∧
      ∃ text, toIsoExtendedStringUtc t = text ++ ascii "Z" ∧ text.length = 19 ∧
        ∀ rest, fromIsoExtendedStringUtc clock (text ++ rest) = clock.fromTimeT t := by
  have hread := fromIso_isoText clock (isInstant_of_fourDigitYear h).isoDigits
  rw [instantOf_gmtime] at hread
  exact ⟨fromIso_toIso clock h, SystemClock.toSeconds_fromTimeT_iff, _, toIso_eq_isoText h,
    length_isoText _ _ _ _, hread⟩

/-- The last second of a leap day. -/
theorem leap_day_round_trip :
    fromIsoExtendedStringUtc .nanoseconds (toIsoExtendedStringUtc 1583020799)
      = 1583020799000000000 :=
  (iso_text_round_trip .nanoseconds ⟨by decide, by decide⟩).1.trans (by decide)

/-! ### Reading what does not exist -/

theorem isoText_inj {date date' : Civil} {hour min sec hour' min' sec' : Nat}
    (h : IsoDigits date hour min sec) (h' : IsoDigits date' hour' min' sec')
    (heq : isoText date hour min sec = isoText date' hour' min' sec') :
    date = date' ∧ hour = hour' ∧ min = min' ∧ sec = sec' := by
  have hread := parseTm_isoText h []
  rw [heq, parseTm_isoText h' [], Option.some.injEq, Tm.mk.injEq] at hread
  obtain ⟨hyear, hmonth, hday, hhour, hmin, hsec⟩ := hread
  refine ⟨Civil.ext ?_ ?_ ?_, ?_, ?_, ?_⟩ <;> omega

/-- What is written with four digits in front of the first dash has a four-digit year. -/
theorem fourDigitYear_of_isPrefix {date : Civil} {hour min sec : Nat} {t : Int}
    (h : isoText date hour min sec <+: toIsoExtendedStringUtc t) : FourDigitYear t := by
  have hdash : ascii "-" = ['-'.toUInt8] := rfl
  simp only [isoText, dayText, toIsoExtendedStringUtc, List.append_assoc, List.cons_append, gmtime,
    Int.sub_add_cancel] at h
  obtain ⟨h0, hlt⟩ := range_of_isPrefix (by decide) (Or.inl (by decide)) h
  exact ⟨h0, by omega⟩

/-- **What was read is written as it was read** exactly if it exists, and is the instant that is
written. -/
theorem isoText_isPrefix_toIso {date : Civil} {hour min sec : Nat} {t : Int}
    (h : IsoDigits date hour min sec) :
    isoText date hour min sec <+: toIsoExtendedStringUtc t ↔
      IsInstant date hour min sec ∧ t = instantOf date hour min sec := by
  constructor
  · intro hwritten
    have hfour := fourDigitYear_of_isPrefix hwritten
    have hinstant := isInstant_of_fourDigitYear hfour
    rw [toIso_eq_isoText hfour] at hwritten
    obtain ⟨rest, hrest⟩ := hwritten
    obtain ⟨htext, -⟩ := List.append_inj hrest (by simp)
    obtain ⟨hdate, hhour, hmin, hsec⟩ := isoText_inj h hinstant.isoDigits htext
    have hfields := instantOf_gmtime t
    rw [← hdate, ← hhour, ← hmin, ← hsec] at hinstant hfields
    exact ⟨hinstant, hfields.symm⟩
  · rintro ⟨hexists, rfl⟩
    rw [toIso_instantOf hexists]
    exact List.prefix_append _ _

end TradingDesk.Utils
