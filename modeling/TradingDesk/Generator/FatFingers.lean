import TradingDesk.Generator.TradingHours

/-!
# TradingDesk.Generator.FatFingers

**The injected errors** (`should_generate_error`). There are three regimes: more errors
than iterations, more than half of them, and fewer, which are put right in front of the
middle of the day. A day has at least nine tenths of its iterations, so the middle is
always reached; in all three regimes the errors of the middle day are one block of rows.
-/

namespace TradingDesk.Generator

open TradingDesk.Core (lt_length_takeWhile_iff pairwise_map_nthFrom)
open TradingDesk.Utils

/-! ### The block -/

/-- A subtraction, unless it wraps. -/
def checkedSub (a b : UInt64) : Option UInt64 := if b ≤ a then some (a - b) else none

/-- `should_generate_error`, with its subtraction checked. -/
def shouldGenerateError? (cfg : Config) (day : UInt32) (i : UInt64) : Option Bool :=
  if day ≠ cfg.days / 2 then some false
  else if cfg.iterations < cfg.errors then some true
  else if cfg.iterations / 2 < cfg.errors then some (decide (i < cfg.errors))
  else
    (checkedSub (cfg.iterations / 2) cfg.errors).map fun startError =>
      let endError := startError + cfg.errors
      decide (startError ≤ i ∧ i < endError)

/-- **No subtraction wraps**: where they are checked, the answers are the same. -/
theorem shouldGenerateError?_eq (cfg : Config) (day : UInt32) (i : UInt64) :
    shouldGenerateError? cfg day i = some (shouldGenerateError cfg day i) := by
  unfold shouldGenerateError? shouldGenerateError
  by_cases hday : day ≠ cfg.days / 2
  · rw [if_pos hday, if_pos hday]
  · rw [if_neg hday, if_neg hday]
    by_cases hmore : cfg.iterations < cfg.errors
    · rw [if_pos hmore, if_pos hmore]
    · rw [if_neg hmore, if_neg hmore]
      by_cases hmany : cfg.iterations / 2 < cfg.errors
      · rw [if_pos hmany, if_pos hmany]
      · -- the errors are no more than half of the iterations
        rw [if_neg hmany, if_neg hmany, checkedSub, if_pos (UInt64.not_lt.mp hmany),
          Option.map_some]

/-- The first error of the middle day: 0 unless the errors fit in front of the middle. -/
def errorStart (cfg : Config) : Nat := cfg.iterations.toNat / 2 - cfg.errors.toNat

theorem toNat_half (cfg : Config) : (cfg.iterations / 2).toNat = cfg.iterations.toNat / 2 :=
  UInt64.toNat_div cfg.iterations 2

/-- **The three regimes** come to one block, on a day with at least half of the iterations
and at most all of them. -/
theorem shouldGenerateError_iff (cfg : Config) {rows k : Nat}
    (hhalf : cfg.iterations.toNat / 2 ≤ rows) (hall : rows ≤ cfg.iterations.toNat) (hk : k < rows) :
    shouldGenerateError cfg (cfg.days / 2) (.ofNat k) = true ↔
      errorStart cfg ≤ k ∧ k < errorStart cfg + min cfg.errors.toNat rows := by
  have hiterations := cfg.iterations.toNat_lt
  have hkNat : (UInt64.ofNat k).toNat = k := UInt64.toNat_ofNat_of_lt' (by show k < 2 ^ 64; omega)
  unfold shouldGenerateError errorStart
  rw [if_neg fun hne => hne rfl]
  by_cases hmore : cfg.iterations < cfg.errors
  · -- every row is an error
    rw [if_pos hmore]
    rw [UInt64.lt_iff_toNat_lt] at hmore
    simp only [true_iff]
    omega
  · rw [if_neg hmore]
    by_cases hmany : cfg.iterations / 2 < cfg.errors
    · -- the errors begin with the day
      rw [if_pos hmany]
      rw [UInt64.lt_iff_toNat_lt, toNat_half] at hmany
      rw [UInt64.lt_iff_toNat_lt] at hmore
      simp only [decide_eq_true_eq, UInt64.lt_iff_toNat_lt, hkNat]
      omega
    · -- the errors end in the middle of the day
      rw [if_neg hmany]
      have hle := UInt64.not_lt.mp hmany
      have hstart := UInt64.toNat_sub_of_le _ _ hle
      rw [UInt64.le_iff_toNat_le, toNat_half] at hle
      rw [toNat_half] at hstart
      have hend : (cfg.iterations / 2 - cfg.errors + cfg.errors).toNat
          = cfg.iterations.toNat / 2 := by
        rw [UInt64.sub_add_cancel, toNat_half]
      simp only [decide_eq_true_eq, UInt64.lt_iff_toNat_lt, UInt64.le_iff_toNat_le, hkNat, hstart,
        hend]
      omega

/-! ### The rows of a day -/

section

variable {F : Type} {cfg : Config} (draws : Draws F cfg) (day : UInt32)

/-- The errors among the rows of a day are those from `start` up to `start + n`, and no
others. -/
def IsErrorBlock (rows : List (Row F)) (start n : Nat) : Prop :=
  start + n ≤ rows.length ∧ ∀ k row, rows[k]? = some row →
    row = if start ≤ k ∧ k < start + n
      then generateErrorTransaction row.ts (draws.row day (.ofNat k))
      else generateTransaction row.ts (draws.row day (.ofNat k))

/-- **Run lemma.** Row `k` of the rows from `i` on. -/
theorem generateRows_getElem {rounds : Nat} {i : UInt64} {ts : Timespec} {k : Nat} {row : Row F}
    (h : (generateRows cfg draws day rounds i ts)[k]? = some row) :
    row = if shouldGenerateError cfg day (i + .ofNat k) then
        generateErrorTransaction row.ts (draws.row day (i + .ofNat k))
      else generateTransaction row.ts (draws.row day (i + .ofNat k)) := by
  induction rounds generalizing i ts k with
  | zero => cases h
  | succ rounds ih =>
      rw [generateRows] at h
      cases k with
      | zero =>
          rw [List.getElem?_cons_zero, Option.some.injEq] at h
          have hi : i + .ofNat 0 = i := UInt64.add_zero i
          rw [hi, ← h]
          split <;> rfl
      | succ k =>
          rw [List.getElem?_cons_succ] at h
          have hi : i + .ofNat (k + 1) = i + 1 + .ofNat k := by
            rw [UInt64.add_assoc, UInt64.add_comm 1, UInt64.ofNat_add]
            rfl
          rw [hi]
          exact ih h

/-- The errors of one day: in front of its middle, or none. -/
theorem generateDay_isErrorBlock (date : Date) :
    if day = cfg.days / 2 then
      IsErrorBlock draws day (generateDay cfg draws day date).rows (errorStart cfg)
        (min cfg.errors.toNat (generateDay cfg draws day date).rows.length)
    else IsErrorBlock draws day (generateDay cfg draws day date).rows 0 0 := by
  have hlen : (generateDay cfg draws day date).rows.length
      = (iterationsCount cfg.iterations (draws.iterations day)).toNat :=
    length_generateRows draws day _ _ _
  have hge := less_tenth_le_iterationsCount draws day
  have hall := UInt64.le_iff_toNat_le.mp (iterationsCount_le draws day)
  rw [← hlen] at hge hall
  by_cases hday : day = cfg.days / 2
  · rw [if_pos hday]
    subst hday
    refine ⟨by unfold errorStart; omega, fun k row hrow => ?_⟩
    obtain ⟨hk, -⟩ := List.getElem?_eq_some_iff.mp hrow
    have hhalf : cfg.iterations.toNat / 2
        ≤ (generateDay cfg draws (cfg.days / 2) date).rows.length := by omega
    have hregime := shouldGenerateError_iff cfg hhalf hall hk
    have hgenerated := generateRows_getElem draws _ hrow
    simp only [UInt64.zero_add, hregime] at hgenerated
    exact hgenerated
  · rw [if_neg hday]
    refine ⟨Nat.zero_le _, fun k row hrow => ?_⟩
    have hgenerated := generateRows_getElem draws _ hrow
    have hnone : shouldGenerateError cfg day (.ofNat k) = false := if_pos hday
    simp only [UInt64.zero_add, hnone, Bool.false_eq_true, if_false] at hgenerated
    rw [if_neg (by omega)]
    exact hgenerated

end

/-! ### Runs -/

section

variable {F : Type} {build : FmtBuild} {cfg : Config} (draws : Draws F cfg)

theorem ofNat_eq_half_iff {i : Nat} (h : i < cfg.days.toNat) :
    UInt32.ofNat i = cfg.days / 2 ↔ i = cfg.days.toNat / 2 := by
  have hlt := cfg.days.toNat_lt
  rw [← UInt32.toNat_inj, UInt32.toNat_div, UInt32.toNat_ofNat_of_lt' (show i < 2 ^ 32 by omega)]
  rfl

/-- The calendar has the middle day of a run. -/
def ReachesMiddle (cfg : Config) : Prop :=
  (1400 ≤ cfg.year.toNat ∧ cfg.year.toNat ≤ 9999) ∧
    nthWeekday cfg.year.toNat (cfg.days.toNat / 2) ≤ maxDay

/-- The middle day is generated exactly if no message throws and the calendar has it. -/
theorem middle_generated_iff (hdays : 0 < cfg.days) :
    cfg.days.toNat / 2 < (generateTransactionLog build cfg draws).1.length ↔
      build.deprecatedNSpecifier = true ∧ ReachesMiddle cfg := by
  rw [UInt32.lt_iff_toNat_lt] at hdays
  have hmiddle : cfg.days.toNat / 2 < cfg.days.toNat := Nat.div_lt_self hdays (by decide)
  cases hbuild : build.deprecatedNSpecifier with
  | false =>
      rw [generateTransactionLog_of_no_specifier hbuild]
      exact iff_of_false (Nat.not_lt_zero _) fun h => Bool.false_ne_true h.1
  | true =>
      by_cases hyear : 1400 ≤ cfg.year.toNat ∧ cfg.year.toNat ≤ 9999
      · have hdates := congrArg List.length (dates_of_year draws hbuild hyear)
        rw [List.length_map, List.length_map] at hdates
        have hsorted : ((List.range cfg.days.toNat).map (nthWeekday cfg.year.toNat)).Pairwise
            (· < ·) := pairwise_map_nthFrom isNext_nextWeekday _ _
        have hlen : cfg.days.toNat / 2
            < ((List.range cfg.days.toNat).map (nthWeekday cfg.year.toNat)).length := by
          rwa [List.length_map, List.length_range]
        rw [hdates, lt_length_takeWhile_iff hsorted hlen, List.getElem_map, List.getElem_range]
        simp [ReachesMiddle, hyear]
      · rw [generateTransactionLog, Date.make_firstOfYear, if_neg hyear]
        exact iff_of_false (Nat.not_lt_zero _) fun h => hyear h.2.1

variable (build) in
/-- Day `days / 2` is generated, with as many rows as were drawn, and among them are the configured
number of errors, or as many as it has rows, in one block. No other day has any, and the decisions
are made without a subtraction that wraps. -/
structure InjectsExactly : Prop where
  middle : ∃ log, (generateTransactionLog build cfg draws).1[cfg.days.toNat / 2]? = some log ∧
    log.rows.length = (iterationsCount cfg.iterations (draws.iterations (cfg.days / 2))).toNat ∧
    ∃ start, IsErrorBlock draws (cfg.days / 2) log.rows start
      (min cfg.errors.toNat log.rows.length)
  others : ∀ i log, (generateTransactionLog build cfg draws).1[i]? = some log →
    i ≠ cfg.days.toNat / 2 → IsErrorBlock draws (.ofNat i) log.rows 0 0
  subtracts : ∀ day i, shouldGenerateError? cfg day i = some (shouldGenerateError cfg day i)

/-- **Where the errors are injected exactly.** In every run over at least one day, whatever the
random generators yield: if and only if integers have the presentation `n` and the calendar has the
middle day. -/
theorem fat_fingers_exact_iff (hdays : 0 < cfg.days) :
    InjectsExactly build draws ↔ build.deprecatedNSpecifier = true ∧ ReachesMiddle cfg := by
  rw [← middle_generated_iff draws hdays]
  constructor
  · intro hinjects
    obtain ⟨log, hlog, -⟩ := hinjects.middle
    exact (List.getElem?_eq_some_iff.mp hlog).1
  · intro hlt
    refine ⟨?_, fun i log hlog hne => ?_, shouldGenerateError?_eq cfg⟩
    · have hlog := List.getElem?_eq_getElem hlt
      obtain ⟨hi, date, hday⟩ := generateTransactionLog_getElem draws hlog
      have hmiddle : UInt32.ofNat (cfg.days.toNat / 2) = cfg.days / 2 :=
        (ofNat_eq_half_iff hi).mpr rfl
      have hrows := length_rows draws hlog
      have hblock := generateDay_isErrorBlock draws (cfg.days / 2) date
      rw [if_pos rfl] at hblock
      rw [hmiddle] at hrows hday
      exact ⟨_, hlog, hrows, errorStart cfg, hday ▸ hblock⟩
    · obtain ⟨hi, date, rfl⟩ := generateTransactionLog_getElem draws hlog
      have hblock := generateDay_isErrorBlock draws (.ofNat i) date
      rwa [if_neg fun hmiddle => hne ((ofNat_eq_half_iff hi).mp hmiddle)] at hblock

end

/-- As the library is compiled here, the middle of the week is not reached. -/
theorem firstWeek_injects_nothing :
    0 < firstWeek.days ∧
      (generateTransactionLog .vendored firstWeek firstWeekDraws).1[5 / 2]? = none ∧
      ¬ InjectsExactly .vendored firstWeekDraws := by
  have hnone : (generateTransactionLog .vendored firstWeek firstWeekDraws).1 = [] :=
    generateTransactionLog_of_no_specifier rfl
  refine ⟨by decide, by rw [hnone]; rfl, fun hinjects => ?_⟩
  obtain ⟨log, hlog, -⟩ := hinjects.middle
  rw [hnone] at hlog
  cases hlog

/-- Where no message throws, the third of the five days has eight rows, and ten errors were asked
for: all rows are errors. -/
theorem firstWeek_injects_exactly :
    InjectsExactly ⟨true⟩ firstWeekDraws ∧
      ∃ log, (generateTransactionLog ⟨true⟩ firstWeek firstWeekDraws).1[2]? = some log ∧
        log.rows.length = 8 ∧ IsErrorBlock firstWeekDraws 2 log.rows 0 8 := by
  have hmiddle : nthWeekday 2008 2 ≤ maxDay := by
    have hthird := congrArg (·[2]?) nthWeekday_firstWeek
    have hday : nthWeekday 2008 2 = 13881 := Option.some.inj hthird
    rw [hday]
    decide
  have hinjects := (fat_fingers_exact_iff firstWeekDraws (by decide)).mpr
    ⟨rfl, (by decide : 1400 ≤ firstWeek.year.toNat ∧ firstWeek.year.toNat ≤ 9999), hmiddle⟩
  refine ⟨hinjects, ?_⟩
  obtain ⟨log, hlog, hlen, start, hblock⟩ := hinjects.middle
  have hrows : log.rows.length = 8 := hlen.trans (by decide)
  rw [hrows] at hblock
  obtain rfl : start = 0 := by
    have hle : start + 8 ≤ log.rows.length := hblock.1
    omega
  exact ⟨log, hlog, hrows, hblock⟩

end TradingDesk.Generator
