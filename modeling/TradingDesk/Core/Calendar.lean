import Mathlib.Logic.Function.Basic

/-!
# TradingDesk.Core.Calendar

**The proleptic Gregorian calendar** on all years, as a bijection between dates and
day numbers. Day 0 is 1970-01-01. Years are counted from March, so that the leap day
is the last day of its year; a month's first day is then a linear function of its
number, and a century's, a year's and a month's start are each one division.
-/

namespace TradingDesk.Core

/-- A date. -/
@[ext] structure Civil where
  year : Int
  month : Int
  day : Int
  deriving Repr, DecidableEq

namespace Civil

/-- The day number of 1970-01-01, counted from March 1 of the year -4800. -/
def epochOffset : Int := 2472632

/-- The day number of a date. -/
def toDays (date : Civil) : Int :=
  let a := (14 - date.month) / 12
  let y := date.year + 4800 - a
  let m := date.month + 12 * a - 3
  date.day - 1 + (153 * m + 2) / 5 + 365 * y + y / 4 - y / 100 + y / 400 - epochOffset

/-- The date of a day number. -/
def ofDays (n : Int) : Civil :=
  let a := n + epochOffset
  let b := (4 * a + 3) / 146097
  let c := a - 146097 * b / 4
  let d := (4 * c + 3) / 1461
  let e := c - 1461 * d / 4
  let m := (5 * e + 2) / 153
  ⟨100 * b + d - 4800 + m / 10, m + 3 - 12 * (m / 10), e - (153 * m + 2) / 5 + 1⟩

/-- The position of a day number in its four-hundred-year cycle, broken down: the
century `b`, the year `d` of the century, the month `m` and the day `e` of the year,
all counted from March. -/
theorem ofDays_bounds (n : Int) :
    let a := n + epochOffset
    let b := (4 * a + 3) / 146097
    let c := a - 146097 * b / 4
    let d := (4 * c + 3) / 1461
    let e := c - 1461 * d / 4
    let m := (5 * e + 2) / 153
    0 ≤ c ∧ c ≤ 36524 ∧ 0 ≤ d ∧ d ≤ 99 ∧ 0 ≤ e ∧ e ≤ 365 ∧ 0 ≤ m ∧ m ≤ 11 := by
  intro a b c d e m
  have hc : 0 ≤ c ∧ c ≤ 36524 := by omega
  have hd : 0 ≤ d ∧ d ≤ 99 := by omega
  have he : 0 ≤ e ∧ e ≤ 365 := by omega
  have hm : 0 ≤ m ∧ m ≤ 11 := by omega
  exact ⟨hc.1, hc.2, hd.1, hd.2, he.1, he.2, hm.1, hm.2⟩

/-- The date of a day number has that day number. -/
theorem toDays_ofDays (n : Int) : (ofDays n).toDays = n := by
  have h := ofDays_bounds n
  simp only [ofDays, toDays] at h ⊢
  generalize hb : (4 * (n + epochOffset) + 3) / 146097 = b at h ⊢
  generalize hc : n + epochOffset - 146097 * b / 4 = c at h ⊢
  generalize hd : (4 * c + 3) / 1461 = d at h ⊢
  generalize he : c - 1461 * d / 4 = e at h ⊢
  generalize hm : (5 * e + 2) / 153 = m at h ⊢
  obtain ⟨-, -, hd0, hd99, -, -, hm0, hm11⟩ := h
  -- the month and the year count from March again
  have ha : (14 - (m + 3 - 12 * (m / 10))) / 12 = m / 10 := by omega
  rw [ha]
  have hmonth : m + 3 - 12 * (m / 10) + 12 * (m / 10) - 3 = m := by omega
  have hyear : 100 * b + d - 4800 + m / 10 + 4800 - m / 10 = 100 * b + d := by omega
  rw [hmonth, hyear]
  have h100 : (100 * b + d) / 100 = b := by omega
  have h400 : (100 * b + d) / 400 = b / 4 := by omega
  have h4 : (100 * b + d) / 4 = 25 * b + d / 4 := by omega
  have hcentury : 146097 * b / 4 = 36524 * b + b / 4 := by omega
  have hyears : 1461 * d / 4 = 365 * d + d / 4 := by omega
  rw [h100, h400, h4]
  clear hd hm hb h100 h400 h4 ha
  omega

theorem month_ofDays (n : Int) : 1 ≤ (ofDays n).month ∧ (ofDays n).month ≤ 12 := by
  obtain ⟨-, -, -, -, -, -, hm0, hm11⟩ := ofDays_bounds n
  simp only [ofDays]
  generalize (5 * _ + 2) / (153 : Int) = m at *
  omega

theorem day_ofDays (n : Int) : 1 ≤ (ofDays n).day ∧ (ofDays n).day ≤ 31 := by
  obtain ⟨-, -, -, -, he0, he, -, -⟩ := ofDays_bounds n
  simp only [ofDays]
  generalize n + epochOffset - 146097 * _ / 4 - 1461 * _ / (4 : Int) = e at *
  omega

/-- The years of days: a year starts on its first day. -/
theorem le_year_iff {date : Civil} (hmonth : 1 ≤ date.month ∧ date.month ≤ 12)
    (hday : 1 ≤ date.day ∧ date.day ≤ 31) (year : Int) :
    year ≤ date.year ↔ toDays ⟨year, 1, 1⟩ ≤ date.toDays := by
  simp only [toDays, epochOffset]
  -- January and February count as months of the year before
  have ha : (14 - date.month) / 12 = 0 ∨ (14 - date.month) / 12 = 1 := by omega
  have hfirst : (14 - 1) / (12 : Int) = 1 := by decide
  rcases ha with ha | ha <;> rw [ha, hfirst] <;> omega

/-- Different day numbers have different dates. -/
theorem ofDays_injective : Function.Injective ofDays := fun m n h => by
  rw [← toDays_ofDays m, h, toDays_ofDays]

/-! ### Existing dates -/

/-- A leap year. -/
def IsLeap (year : Int) : Prop := year % 4 = 0 ∧ (year % 100 ≠ 0 ∨ year % 400 = 0)

instance (year : Int) : Decidable (IsLeap year) :=
  inferInstanceAs (Decidable (year % 4 = 0 ∧ (year % 100 ≠ 0 ∨ year % 400 = 0)))

/-- The length of a month. -/
def daysInMonth (year month : Int) : Int :=
  if month = 2 then if IsLeap year then 29 else 28
  else if month = 4 ∨ month = 6 ∨ month = 9 ∨ month = 11 then 30
  else 31

/-- The month and the day exist. -/
structure IsDate (date : Civil) : Prop where
  month_range : 1 ≤ date.month ∧ date.month ≤ 12
  day_range : 1 ≤ date.day ∧ date.day ≤ daysInMonth date.year date.month

theorem daysInMonth_le (year month : Int) : daysInMonth year month ≤ 31 := by
  unfold daysInMonth
  split
  · split <;> omega
  · split <;> omega

theorem IsDate.day_le {date : Civil} (h : date.IsDate) : 1 ≤ date.day ∧ date.day ≤ 31 :=
  ⟨h.day_range.1, Int.le_trans h.day_range.2 (daysInMonth_le _ _)⟩

/-- The length of a month other than February, counted from March. -/
theorem daysInMonth_of_ne_two {year month : Int} (h : 1 ≤ month ∧ month ≤ 12) (h2 : month ≠ 2) :
    daysInMonth year month = if month = 1 then 31 else
      (153 * (month - 2) + 2) / 5 - (153 * (month - 3) + 2) / 5 := by
  have hcases : month = 1 ∨ month = 3 ∨ month = 4 ∨ month = 5 ∨ month = 6 ∨ month = 7 ∨ month = 8 ∨
      month = 9 ∨ month = 10 ∨ month = 11 ∨ month = 12 := by omega
  unfold daysInMonth
  rw [if_neg h2]
  rcases hcases with rfl | rfl | rfl | rfl | rfl | rfl | rfl | rfl | rfl | rfl | rfl <;> decide

/-- A month ends where the next one of its year begins. -/
theorem firstOfMonth_succ {year month : Int} (h1 : 1 ≤ month) (h12 : month < 12) :
    toDays ⟨year, month + 1, 1⟩ = toDays ⟨year, month, 1⟩ + daysInMonth year month := by
  simp only [toDays, epochOffset]
  by_cases h2 : month = 2
  · -- the year that counts from March begins behind February
    subst h2
    have ha : (14 - 2) / (12 : Int) = 1 := by decide
    have ha' : (14 - (2 + 1)) / (12 : Int) = 0 := by decide
    simp only [ha, ha', daysInMonth, if_true]
    by_cases hleap : IsLeap year
    · rw [if_pos hleap]
      unfold IsLeap at hleap
      omega
    · rw [if_neg hleap]
      unfold IsLeap at hleap
      omega
  · rw [daysInMonth_of_ne_two (by omega) h2]
    split
    · subst month
      have ha : (14 - 1) / (12 : Int) = 1 := by decide
      have ha' : (14 - (1 + 1)) / (12 : Int) = 1 := by decide
      simp only [ha, ha']
      omega
    · have ha : (14 - month) / 12 = 0 := by omega
      have ha' : (14 - (month + 1)) / 12 = 0 := by omega
      have hm : month + 1 - 3 = month - 2 := by omega
      simp only [ha, ha', Int.mul_zero, Int.add_zero, hm]
      omega

theorem toDays_eq_firstOfMonth_add (date : Civil) :
    date.toDays = toDays ⟨date.year, date.month, 1⟩ + (date.day - 1) := by
  simp only [toDays]
  omega

/-- Later months of a year have later days. -/
theorem firstOfMonth_le {year month : Int} {date : Civil} (hyear : date.year = year)
    (h1 : 1 ≤ month) (hle : month ≤ date.month) (h12 : date.month ≤ 12) (hday : 1 ≤ date.day) :
    toDays ⟨year, month, 1⟩ ≤ date.toDays := by
  subst hyear
  simp only [toDays, epochOffset]
  -- January and February count as months of the year before
  have ha : (14 - month) / 12 = 0 ∨ (14 - month) / 12 = 1 := by omega
  have ha' : (14 - date.month) / 12 = 0 ∨ (14 - date.month) / 12 = 1 := by omega
  rcases ha with ha | ha <;> rcases ha' with ha' | ha' <;> rw [ha, ha'] <;> omega

/-- A later month of the same year has later days. -/
theorem IsDate.lt_of_month_lt {date date' : Civil} (h : date.IsDate) (h' : date'.IsDate)
    (hyear : date'.year = date.year) (hlt : date.month < date'.month) :
    date.toDays < date'.toDays := by
  have hday := h.day_range.2
  have h1 := h.month_range.1
  have h12 := h'.month_range.2
  have hnext := @firstOfMonth_succ date.year date.month h1 (by omega)
  have hfirst := @firstOfMonth_le date.year (date.month + 1) date' hyear (by omega) (by omega) h12
    h'.day_range.1
  have heq := toDays_eq_firstOfMonth_add date
  omega

/-- **A day has one date.** -/
theorem IsDate.eq_of_toDays {date date' : Civil} (h : date.IsDate) (h' : date'.IsDate)
    (hdays : date.toDays = date'.toDays) : date = date' := by
  have hyear : date.year = date'.year := by
    have hle := le_year_iff h.month_range h.day_le date'.year
    have hge := le_year_iff h'.month_range h'.day_le date.year
    have hself := le_year_iff h.month_range h.day_le date.year
    have hself' := le_year_iff h'.month_range h'.day_le date'.year
    omega
  have hmonth : date.month = date'.month := by
    by_contra hne
    rcases Int.lt_or_gt_of_ne hne with hlt | hlt
    · have := h.lt_of_month_lt h' hyear.symm hlt
      omega
    · have := h'.lt_of_month_lt h hyear hlt
      omega
  have hfirst := toDays_eq_firstOfMonth_add date
  have hfirst' := toDays_eq_firstOfMonth_add date'
  rw [hyear, hmonth] at hfirst
  exact Civil.ext hyear hmonth (by omega)

/-- The year whose February closes four years, and not a century unless it closes four of
them. -/
theorem isLeap_of_closes {b d : Int} (hrange : 0 ≤ d ∧ d ≤ 99) (hd : d % 4 = 3)
    (hb : d = 99 → b % 4 = 3) : IsLeap (100 * b + d - 4800 + 1) := by
  refine ⟨by omega, ?_⟩
  by_cases hcentury : d = 99
  · have hb4 := hb hcentury
    right
    omega
  · left
    omega

/-- The last day of a year that counts from March is a leap day. -/
theorem isLeap_of_last_day {a b c d e : Int} (hb : (4 * a + 3) / 146097 = b)
    (hc : a - 146097 * b / 4 = c) (hd : (4 * c + 3) / 1461 = d) (hrange : 0 ≤ d ∧ d ≤ 99)
    (he : c - 1461 * d / 4 = e) (hlast : e = 365) : IsLeap (100 * b + d - 4800 + 1) := by
  subst hlast
  have hyears : 1461 * d % 4 = d % 4 := by omega
  have hcenturies : 146097 * b % 4 = b % 4 := by omega
  -- the divisions have nothing left over for a day more
  have hfour : 1461 * d % 4 = 3 := by
    clear hb hc hcenturies
    omega
  refine isLeap_of_closes hrange (hyears ▸ hfour) fun hcentury => ?_
  rw [← hcenturies]
  clear hyears hfour hcenturies
  subst hcentury
  have hcycle : c = 36524 := by omega
  clear hd he
  omega

/-- Every day has an existing date. -/
theorem isDate_ofDays (n : Int) : (ofDays n).IsDate := by
  refine ⟨month_ofDays n, (day_ofDays n).1, ?_⟩
  have h := ofDays_bounds n
  simp only [ofDays] at h ⊢
  generalize n + epochOffset = a at h ⊢
  generalize hb : (4 * a + 3) / 146097 = b at h ⊢
  generalize hc : a - 146097 * b / 4 = c at h ⊢
  generalize hd : (4 * c + 3) / 1461 = d at h ⊢
  generalize he : c - 1461 * d / 4 = e at h ⊢
  obtain ⟨-, -, hd0, hd1, he0, he1, hm0, hm1⟩ := h
  have hlast := isLeap_of_last_day hb hc hd ⟨hd0, hd1⟩ he
  clear hb hc hd he
  generalize hm : (5 * e + 2) / 153 = m at hm0 hm1 ⊢
  by_cases hfeb : m = 11
  · -- a twenty-ninth of February is the last day of its year
    subst hfeb
    have hdiv : (11 : Int) / 10 = 1 := by decide
    have hmonth : (11 : Int) + 3 - 12 * 1 = 2 := by decide
    rw [hdiv, hmonth, daysInMonth, if_pos rfl]
    by_cases hleap : IsLeap (100 * b + d - 4800 + 1)
    · rw [if_pos hleap]
      omega
    · rw [if_neg hleap]
      have hshort : e ≠ 365 := fun h365 => hleap (hlast h365)
      omega
  · have hnext : e < (153 * (m + 1) + 2) / 5 := by omega
    rcases (by omega : m = 10 ∨ m ≤ 9) with rfl | hm9
    · have hdiv : (10 : Int) / 10 = 1 := by decide
      have hmonth : (10 : Int) + 3 - 12 * 1 = 1 := by decide
      have hlen : daysInMonth (100 * b + d - 4800 + 1) 1 = 31 := rfl
      rw [hdiv, hmonth, hlen]
      omega
    · have hdiv : m / 10 = 0 := by omega
      have h2 : m + 3 - 2 = m + 1 := by omega
      have h3 : m + 3 - 3 = m := by omega
      rw [hdiv, Int.mul_zero, Int.sub_zero, daysInMonth_of_ne_two (by omega) (by omega),
        if_neg (by omega), h2, h3]
      omega

/-- An existing date is the date of its day. -/
theorem IsDate.ofDays_toDays {date : Civil} (h : date.IsDate) : ofDays date.toDays = date :=
  (isDate_ofDays _).eq_of_toDays h (toDays_ofDays _)

end Civil

end TradingDesk.Core
