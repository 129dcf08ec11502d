import Mathlib.Data.List.TakeWhile
import TradingDesk.Core.Visits
import TradingDesk.Generator.TransactionLog

/-!
# TradingDesk.Generator.Weekdays

**The generator visits exactly the weekdays.** `skip_weekend` moves the iterator to the
next weekday, wherever it stands, and the header of the loop moves it one day further.
That is a walk over the weekdays, so the days it visits are the first ones from the start
on, until the calendar ends. The calendar ends on a Friday: no weekend has to be skipped
past its end.

All of that is behind a message that throws as the library is compiled here:
`visits_weekdays_iff`.
-/

namespace TradingDesk.Generator

open TradingDesk.Core (Civil IsNext visits nthFrom visits_eq_nthFrom of_mem_visits pairwise_visits)
open TradingDesk.Utils

/-! ### Weekdays -/

/-- Monday to Friday. Day 0 is a Thursday, the fourth day of a week that begins on a
Sunday. -/
def IsWeekday (n : Int) : Prop := 1 ≤ (n + 4) % 7 ∧ (n + 4) % 7 ≤ 5

/-- The weekday with `i` others before it from the first of January on. -/
noncomputable def nthWeekday (year : Nat) (i : Nat) : Int :=
  nthFrom IsWeekday (Civil.toDays ⟨year, 1, 1⟩) i

/-- The day that `skip_weekend` moves to. -/
def nextWeekday (m : Int) : Int :=
  if (m + 4) % 7 = 0 then m + 1 else if (m + 4) % 7 = 6 then m + 2 else m

theorem isNext_nextWeekday (m : Int) : IsNext IsWeekday m (nextWeekday m) := by
  unfold nextWeekday
  split
  · -- a Sunday
    refine ⟨by omega, by unfold IsWeekday; omega, ?_⟩
    intro j hj hlt
    unfold IsWeekday
    omega
  · split
    · -- a Saturday
      refine ⟨by omega, by unfold IsWeekday; omega, ?_⟩
      intro j hj hlt
      unfold IsWeekday
      omega
    · -- a weekday
      refine ⟨by omega, by unfold IsWeekday; omega, ?_⟩
      intro j hj hlt
      omega

/-- `skip_weekend` from a supported day, or from the day behind the last. -/
theorem skipWeekend_ofDay {m : Int} (h : minDay ≤ m ∧ m ≤ maxDay + 1) :
    skipWeekend (Date.ofDay m)
      = if nextWeekday m ≤ maxDay then some (Date.ofDay (nextWeekday m)) else none := by
  by_cases hm : m ≤ maxDay
  · -- the last day is a Friday
    have hnext : nextWeekday m ≤ maxDay := by
      unfold nextWeekday maxDay at *
      split
      · omega
      · split <;> omega
    have hsunday : ((m + 4) % 7).toNat = 0 ↔ (m + 4) % 7 = 0 := by omega
    have hsaturday : ((m + 4) % 7).toNat = 6 ↔ (m + 4) % 7 = 6 := by omega
    have htwo : m + 1 + 1 = m + 2 := by omega
    have hnext₂ : (Date.ofDay m).next.next = Date.ofDay (m + 2) := by
      rw [Date.next_ofDay, Date.next_ofDay, htwo]
    rw [if_pos hnext, skipWeekend, Date.dayOfWeek_ofDay ⟨h.1, hm⟩, Option.map_some, nextWeekday,
      apply_ite Date.ofDay, apply_ite Date.ofDay, ← Date.next_ofDay m, ← hnext₂]
    simp only [hsunday, hsaturday]
  · have hle := (isNext_nextWeekday m).le
    rw [if_neg (by omega), skipWeekend,
      Date.dayOfWeek_ofDay_of_lt (by omega) (by unfold maxDay epochDay at *; omega),
      Option.map_none]

theorem firstOfYear_range {year : Nat} (h : 1400 ≤ year ∧ year ≤ 9999) :
    minDay ≤ Civil.toDays ⟨year, 1, 1⟩ ∧ Civil.toDays ⟨year, 1, 1⟩ ≤ maxDay := by
  have hyear : 1400 ≤ (⟨year, 1, 1⟩ : Civil).year ∧ (⟨year, 1, 1⟩ : Civil).year ≤ 9999 := by
    simp only
    omega
  exact (toDays_range (by simp) (by simp)).mp hyear

/-! ### The loop over the days -/

section

variable {F : Type} {build : FmtBuild} {cfg : Config} (draws : Draws F cfg)

/-- **Run lemma.** The days visited, until the calendar ends. -/
theorem dates_generateDays (hbuild : build.deprecatedNSpecifier = true) (rounds : Nat)
    (days : UInt32) {m : Int} (h : minDay ≤ m ∧ m ≤ maxDay + 1) :
    (generateDays build cfg draws rounds days (Date.ofDay m)).1.map DayLog.date
      = ((visits nextWeekday rounds m).takeWhile (· ≤ maxDay)).map Date.ofDay := by
  induction rounds generalizing days m with
  | zero => rfl
  | succ rounds ih =>
      have hle := (isNext_nextWeekday m).le
      rw [generateDays_of_specifier hbuild, skipWeekend_ofDay h, visits]
      by_cases hnext : nextWeekday m ≤ maxDay
      · rw [if_pos hnext, Option.elim_some, List.takeWhile_cons_of_pos (by simpa using hnext),
          List.map_cons, List.map_cons, Date.next_ofDay, ih _ (by omega)]
        rfl
      · rw [if_neg hnext, Option.elim_none, List.takeWhile_cons_of_neg (by simpa using hnext)]
        rfl

/-- The days of a run, from the first of January on. -/
theorem dates_of_year (hbuild : build.deprecatedNSpecifier = true)
    (hyear : 1400 ≤ cfg.year.toNat ∧ cfg.year.toNat ≤ 9999) :
    (generateTransactionLog build cfg draws).1.map DayLog.date
      = (((List.range cfg.days.toNat).map (nthWeekday cfg.year.toNat)).takeWhile (· ≤ maxDay)).map
          Date.ofDay := by
  have hstart := firstOfYear_range hyear
  rw [generateTransactionLog, Date.make_firstOfYear, if_pos hyear]
  refine (dates_generateDays draws hbuild _ _ ⟨hstart.1, by omega⟩).trans ?_
  rw [visits_eq_nthFrom isNext_nextWeekday]
  rfl

/-- The days of a run: increasing, and supported by the calendar. -/
theorem dates_generateTransactionLog :
    ∃ ns : List Int, (generateTransactionLog build cfg draws).1.map DayLog.date
      = ns.map Date.ofDay ∧
      ns.Pairwise (· < ·) ∧ ∀ n ∈ ns, IsWeekday n ∧ minDay ≤ n ∧ n ≤ maxDay := by
  cases hbuild : build.deprecatedNSpecifier with
  | false =>
      rw [generateTransactionLog_of_no_specifier hbuild]
      exact ⟨[], rfl, List.Pairwise.nil, by simp⟩
  | true =>
      rw [generateTransactionLog, Date.make_firstOfYear]
      by_cases hyear : 1400 ≤ cfg.year.toNat ∧ cfg.year.toNat ≤ 9999
      · have hstart := firstOfYear_range hyear
        rw [if_pos hyear]
        refine ⟨_, dates_generateDays draws hbuild _ _ ⟨hstart.1, by omega⟩, ?_, ?_⟩
        · exact (pairwise_visits isNext_nextWeekday _ _).sublist (List.takeWhile_sublist _)
        · intro n hn
          obtain ⟨hle, hweekday⟩ :=
            of_mem_visits isNext_nextWeekday ((List.takeWhile_sublist _).subset hn)
          exact ⟨hweekday, by omega, by simpa using List.mem_takeWhile_imp hn⟩
      · rw [if_neg hyear]
        exact ⟨[], rfl, List.Pairwise.nil, by simp⟩

/-- The days of a run that the calendar does not cut short. -/
theorem dates_eq (hbuild : build.deprecatedNSpecifier = true)
    (hyear : 1400 ≤ cfg.year.toNat ∧ cfg.year.toNat ≤ 9999)
    (hrange : ∀ i < cfg.days.toNat, nthWeekday cfg.year.toNat i ≤ maxDay) :
    (generateTransactionLog build cfg draws).1.map DayLog.date
      = (List.range cfg.days.toNat).map fun i => Date.ofDay (nthWeekday cfg.year.toNat i) := by
  have hall : ∀ n ∈ (List.range cfg.days.toNat).map (nthWeekday cfg.year.toNat),
      decide (n ≤ maxDay) = true := by
    intro n hn
    obtain ⟨i, hi, rfl⟩ := List.mem_map.mp hn
    exact decide_eq_true (hrange i (List.mem_range.mp hi))
  rw [dates_of_year draws hbuild hyear, List.takeWhile_eq_self_iff.mpr hall, List.map_map]
  rfl

theorem date_mem {log : DayLog F} (hlog : log ∈ (generateTransactionLog build cfg draws).1) :
    ∃ n, log.date = Date.ofDay n ∧ IsWeekday n ∧ minDay ≤ n ∧ n ≤ maxDay := by
  obtain ⟨ns, hns, -, hall⟩ := @dates_generateTransactionLog F build cfg draws
  have hmem : log.date ∈ ns.map Date.ofDay := hns ▸ List.mem_map_of_mem hlog
  obtain ⟨n, hn, hdate⟩ := List.mem_map.mp hmem
  exact ⟨n, hdate.symm, hall n hn⟩

theorem pairwise_dates : (generateTransactionLog build cfg draws).1.Pairwise
    fun log log' => log.date.days < log'.date.days := by
  obtain ⟨ns, hns, hsorted, hall⟩ := @dates_generateTransactionLog F build cfg draws
  have hdays : (ns.map Date.ofDay).Pairwise fun d d' => d.days < d'.days := by
    rw [List.pairwise_map]
    refine hsorted.imp_of_mem ?_
    intro m n hm hn hlt
    exact (Date.days_ofDay_lt (hall _ hm).2 (hall _ hn).2).mpr hlt
  rw [← hns, List.pairwise_map] at hdays
  exact hdays

variable (build) in
/-- The dates processed are the first weekdays on or after the first of January, as many as there
are iterations, in increasing order. -/
structure VisitsWeekdays : Prop where
  dates : (generateTransactionLog build cfg draws).1.map DayLog.date
    = (List.range cfg.days.toNat).map fun i => Date.ofDay (nthWeekday cfg.year.toNat i)
  increasing : (generateTransactionLog build cfg draws).1.Pairwise
    fun log log' => log.date.days < log'.date.days
  weekdays : ∀ log ∈ (generateTransactionLog build cfg draws).1,
    ∃ w, log.date.dayOfWeek = some w ∧ 1 ≤ w ∧ w ≤ 5

/-- **Where the generator visits exactly the weekdays.** In a run over `n` days in which the
calendar does not end before the `n`-th weekday of its year, whatever the random generators
yield: if and only if integers have the presentation `n`, or no day is asked for. -/
theorem visits_weekdays_iff (hyear : 1400 ≤ cfg.year.toNat ∧ cfg.year.toNat ≤ 9999)
    (hrange : ∀ i < cfg.days.toNat, nthWeekday cfg.year.toNat i ≤ maxDay) :
    VisitsWeekdays build draws ↔ build.deprecatedNSpecifier = true ∨ cfg.days = 0 := by
  have hweekdays : ∀ log ∈ (generateTransactionLog build cfg draws).1,
      ∃ w, log.date.dayOfWeek = some w ∧ 1 ≤ w ∧ w ≤ 5 := by
    intro log hlog
    obtain ⟨n, hdate, hweekday, hsupported⟩ := date_mem draws hlog
    unfold IsWeekday at hweekday
    exact ⟨_, hdate ▸ Date.dayOfWeek_ofDay hsupported, by omega, by omega⟩
  cases hbuild : build.deprecatedNSpecifier with
  | true =>
      exact iff_of_true ⟨dates_eq draws hbuild hyear hrange, pairwise_dates draws, hweekdays⟩
        (Or.inl rfl)
  | false =>
      have hnone := @generateTransactionLog_of_no_specifier F build cfg draws hbuild
      constructor
      · intro hvisits
        have hlen := congrArg List.length hvisits.dates
        rw [hnone, List.length_map, List.length_map, List.length_range] at hlen
        exact Or.inr (UInt32.toNat_inj.mp hlen.symm)
      · rintro (h | h)
        · cases h
        · refine ⟨?_, pairwise_dates draws, hweekdays⟩
          rw [hnone, h]
          rfl

end

/-- Five days of 2008, in which nothing random happens. -/
def firstWeek : Config := ⟨5, 2008, 10, minIterations, UInt64.le_refl _⟩

def firstWeekDraws : Draws Rat firstWeek where
  iterations _ := minIterations
  row _ _ := ⟨0, 200, 1, 0, 0⟩
  iterations_ge _ := by decide
  iterations_le _ := UInt64.le_refl _

/-- As the library is compiled here, the message of the first day throws. -/
theorem firstWeek_visits_nothing :
    generateTransactionLog .vendored firstWeek firstWeekDraws
        = ([], some (.exception "invalid type specifier")) ∧
      ¬ VisitsWeekdays .vendored firstWeekDraws := by
  have hnone : (generateTransactionLog .vendored firstWeek firstWeekDraws).1 = [] :=
    generateTransactionLog_of_no_specifier rfl
  refine ⟨Prod.ext hnone (by decide +kernel), fun hvisits => ?_⟩
  have hlen := congrArg List.length hvisits.dates
  rw [hnone, List.length_map, List.length_map, List.length_range] at hlen
  exact absurd hlen (by decide)

theorem nthWeekday_firstWeek :
    (List.range 5).map (nthWeekday 2008) = [13879, 13880, 13881, 13882, 13885] := by
  have hvisits := visits_eq_nthFrom isNext_nextWeekday 5 (Civil.toDays ⟨2008, 1, 1⟩)
  exact hvisits.symm.trans (by decide)

/-- 2008 begins on a Tuesday: the four days of the first week, and the Monday after. -/
theorem firstWeek_visits_weekdays :
    VisitsWeekdays ⟨true⟩ firstWeekDraws ∧
      (generateTransactionLog ⟨true⟩ firstWeek firstWeekDraws).1.map DayLog.date
        = [13879, 13880, 13881, 13882, 13885].map Date.ofDay := by
  have hrange : ∀ i < 5, nthWeekday 2008 i ≤ maxDay := by
    intro i hi
    have hmem : nthWeekday 2008 i ∈ [13879, 13880, 13881, 13882, 13885] :=
      nthWeekday_firstWeek ▸ List.mem_map_of_mem (List.mem_range.mpr hi)
    revert hmem
    generalize nthWeekday 2008 i = n
    unfold maxDay
    intro hmem
    simp only [List.mem_cons, List.not_mem_nil, or_false] at hmem
    omega
  have hvisits := (visits_weekdays_iff firstWeekDraws (by decide) hrange).mpr (Or.inl rfl)
  refine ⟨hvisits, hvisits.dates.trans ?_⟩
  rw [← nthWeekday_firstWeek, List.map_map]
  rfl

end TradingDesk.Generator
