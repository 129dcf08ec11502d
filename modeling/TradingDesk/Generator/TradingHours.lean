import TradingDesk.Generator.Weekdays

/-!
# TradingDesk.Generator.TradingHours

**Rows stay in trading hours and do not go back in time.** A row's instant is accumulated,
one addition of the increment after the other; `generateRows_ts` says what the additions
come to. The increment is eight hours divided by the configured number of iterations,
rounded down, and a day has at most that many rows: the last one starts before the eight
hours are over.
-/

namespace TradingDesk.Generator

open TradingDesk.Utils

/-- Row `k` of day `n`, in nanoseconds since the epoch. -/
def instant (cfg : Config) (n : Int) (k : Nat) : Int :=
  n * 86400000000000 + nineHours + k * increment cfg

/-! ### The increment -/

theorem increment_eq (cfg : Config) :
    increment cfg = (28800000000000 / cfg.iterations.toNat : Nat) := by
  rw [increment, UInt64.toNat_div]
  rfl

theorem increment_nonneg (cfg : Config) : 0 ≤ increment cfg := by
  rw [increment_eq]
  exact Int.natCast_nonneg _

/-- The increments in front of a row take less than eight hours. -/
theorem mul_increment_lt {cfg : Config} {k : Nat} (h : k < cfg.iterations.toNat) :
    k * increment cfg < 28800000000000 := by
  rw [increment_eq]
  generalize cfg.iterations.toNat = iterations at *
  have hall : iterations * (28800000000000 / iterations) ≤ 28800000000000 := Nat.mul_div_le _ _
  by_cases hzero : 28800000000000 / iterations = 0
  · rw [hzero]
    simp
  · have hlt : k * (28800000000000 / iterations) < iterations * (28800000000000 / iterations) :=
      Nat.mul_lt_mul_of_pos_right h (Nat.pos_of_ne_zero hzero)
    exact_mod_cast hlt.trans_le hall

/-- The increment is positive where a nanosecond is left for each iteration. -/
theorem increment_pos {cfg : Config} (h : cfg.iterations.toNat ≤ 28800000000000) :
    0 < increment cfg := by
  have hmin : 8 ≤ cfg.iterations.toNat := UInt64.le_iff_toNat_le.mp cfg.minIterations_le
  rw [increment_eq]
  exact_mod_cast Nat.div_pos h (by omega)

/-! ### The rows of a day -/

section

variable {F : Type} {cfg : Config} (draws : Draws F cfg) (days : UInt32)

theorem iterationsCount_le : iterationsCount cfg.iterations (draws.iterations days)
    ≤ cfg.iterations := by
  unfold iterationsCount
  split
  · exact UInt64.le_refl _
  · exact draws.iterations_le days

/-- A day has nine tenths of the iterations at least. -/
theorem less_tenth_le_iterationsCount :
    cfg.iterations.toNat - cfg.iterations.toNat / 10
      ≤ (iterationsCount cfg.iterations (draws.iterations days)).toNat := by
  unfold iterationsCount
  split
  · exact Nat.sub_le _ _
  · have hge := UInt64.le_iff_toNat_le.mp (draws.iterations_ge days)
    rwa [toNat_less_tenth] at hge

/-- These are at least eight, as there are at least eight iterations. -/
theorem eight_le_iterationsCount :
    8 ≤ (iterationsCount cfg.iterations (draws.iterations days)).toNat := by
  have hmin : 8 ≤ cfg.iterations.toNat := UInt64.le_iff_toNat_le.mp cfg.minIterations_le
  have hge := less_tenth_le_iterationsCount draws days
  omega

theorem length_generateRows (rounds : Nat) (i : UInt64) (ts : Timespec) :
    (generateRows cfg draws days rounds i ts).length = rounds := by
  induction rounds generalizing i ts with
  | zero => rfl
  | succ rounds ih => rw [generateRows, List.length_cons, ih]

/-- **Run lemma.** The instants of rows, from the instant of the first on. -/
theorem generateRows_ts (rounds : Nat) (i : UInt64) (t : Int) :
    (generateRows cfg draws days rounds i (.ofTotal t)).map Row.ts
      = (List.range rounds).map fun k : Nat => Timespec.ofTotal (t + k * increment cfg) := by
  induction rounds generalizing i t with
  | zero => rfl
  | succ rounds ih =>
      rw [generateRows, List.map_cons, Timespec.add_ofTotal _ (increment_nonneg cfg), ih,
        List.range_succ_eq_map, List.map_cons, List.map_map]
      congr 1
      · -- both kinds of row are written at the instant
        split <;> simp [generateTransaction, generateErrorTransaction]
      · refine List.map_congr_left ?_
        intro k _
        rw [Function.comp_apply, Nat.cast_succ, add_mul, one_mul, add_assoc,
          add_comm (increment cfg)]

/-- The instants of the rows of a day. -/
theorem generateDay_ts {n : Int} (h : minDay ≤ n ∧ n ≤ maxDay) :
    (generateDay cfg draws days (Date.ofDay n)).rows.map Row.ts
      = (List.range (iterationsCount cfg.iterations (draws.iterations days)).toNat).map
          fun k => Timespec.ofTotal (instant cfg n k) := by
  have hmidnight : (⟨extractSeconds (Date.ofDay n), 0⟩ : Timespec)
      = .ofTotal (n * 86400000000000) := by
    rw [extractSeconds_ofDay h, Timespec.ofTotal, Timespec.mk.injEq]
    omega
  rw [generateDay, hmidnight, Timespec.add_ofTotal _ (by decide)]
  exact generateRows_ts draws days _ 0 _

/-- Every row of a day is at one of the instants. -/
theorem of_mem_rows {n : Int} (h : minDay ≤ n ∧ n ≤ maxDay) {row : Row F}
    (hrow : row ∈ (generateDay cfg draws days (Date.ofDay n)).rows) :
    ∃ k < cfg.iterations.toNat, row.ts = .ofTotal (instant cfg n k) := by
  have hmem := List.mem_map_of_mem (f := Row.ts) hrow
  rw [generateDay_ts draws days h] at hmem
  obtain ⟨k, hk, hts⟩ := List.mem_map.mp hmem
  have hcount := UInt64.le_iff_toNat_le.mp (iterationsCount_le draws days)
  exact ⟨k, (List.mem_range.mp hk).trans_le hcount, hts.symm⟩

/-- A relation that later rows of a day have to earlier ones. -/
theorem pairwise_rows {n : Int} (h : minDay ≤ n ∧ n ≤ maxDay) {R : Timespec → Timespec → Prop}
    (hR : ∀ k k', k < k' → R (.ofTotal (instant cfg n k)) (.ofTotal (instant cfg n k'))) :
    (generateDay cfg draws days (Date.ofDay n)).rows.Pairwise fun r r' => R r.ts r'.ts := by
  rw [← List.pairwise_map, generateDay_ts draws days h, List.pairwise_map]
  exact List.pairwise_lt_range.imp (hR _ _)

end

/-! ### Runs -/

section

variable {F : Type} {build : FmtBuild} {cfg : Config} (draws : Draws F cfg)

/-- **Run lemma.** Round `i` of the loop is that of day `i`. -/
theorem generateDays_getElem {rounds i : Nat} {days : UInt32} {itDay : Date} {log : DayLog F}
    (h : (generateDays build cfg draws rounds days itDay).1[i]? = some log) :
    i < rounds ∧ ∃ date, log = generateDay cfg draws (days + .ofNat i) date := by
  cases hbuild : build.deprecatedNSpecifier with
  | false =>
      rw [generateDays_of_no_specifier hbuild] at h
      cases h
  | true =>
      induction rounds generalizing i days itDay with
      | zero => cases h
      | succ rounds ih =>
          rw [generateDays_of_specifier hbuild] at h
          cases hskip : skipWeekend itDay with
          | none =>
              rw [hskip] at h
              cases h
          | some date =>
              rw [hskip] at h
              cases i with
              | zero =>
                  rw [Option.elim_some, List.getElem?_cons_zero, Option.some.injEq] at h
                  have hdays : days + .ofNat 0 = days := UInt32.add_zero days
                  rw [hdays]
                  exact ⟨Nat.succ_pos _, date, h.symm⟩
              | succ i =>
                  rw [Option.elim_some, List.getElem?_cons_succ] at h
                  obtain ⟨hi, date, hlog⟩ := ih h
                  have hdays : days + .ofNat (i + 1) = days + 1 + .ofNat i := by
                    rw [UInt32.add_assoc, UInt32.add_comm 1, UInt32.ofNat_add]
                    rfl
                  rw [hdays]
                  exact ⟨Nat.succ_lt_succ hi, date, hlog⟩

theorem generateTransactionLog_getElem {i : Nat} {log : DayLog F}
    (h : (generateTransactionLog build cfg draws).1[i]? = some log) :
    i < cfg.days.toNat ∧ ∃ date, log = generateDay cfg draws (.ofNat i) date := by
  rw [generateTransactionLog] at h
  cases hstart : Date.make cfg.year.toNat 1 1 with
  | none =>
      rw [hstart] at h
      cases h
  | some startDay =>
      rw [hstart] at h
      obtain ⟨hi, date, hlog⟩ := generateDays_getElem draws h
      rw [UInt32.zero_add] at hlog
      exact ⟨hi, date, hlog⟩

/-- The days of a run are generated on supported days. -/
theorem of_mem_log {log : DayLog F} (h : log ∈ (generateTransactionLog build cfg draws).1) :
    ∃ days n, log = generateDay cfg draws days (Date.ofDay n) ∧ minDay ≤ n ∧ n ≤ maxDay := by
  obtain ⟨n, hdate, -, hsupported⟩ := date_mem draws h
  obtain ⟨i, hi⟩ := List.mem_iff_getElem?.mp h
  obtain ⟨-, date, rfl⟩ := generateTransactionLog_getElem draws hi
  have hn : date = Date.ofDay n := hdate
  exact ⟨.ofNat i, n, by rw [hn], hsupported⟩

/-- The rows of a day: as many as were drawn. -/
theorem length_rows {i : Nat} {log : DayLog F}
    (h : (generateTransactionLog build cfg draws).1[i]? = some log) :
    log.rows.length = (iterationsCount cfg.iterations (draws.iterations (.ofNat i))).toNat := by
  obtain ⟨-, date, rfl⟩ := generateTransactionLog_getElem draws h
  exact length_generateRows draws (.ofNat i) _ _ _

/-- Days are further apart than trading hours are long. -/
theorem instant_lt_instant {m n : Int} {k k' : Nat} (hmn : m < n) (hk : k < cfg.iterations.toNat) :
    instant cfg m k < instant cfg n k' := by
  have hlt := mul_increment_lt hk
  have hpos : 0 ≤ k' * increment cfg :=
    Int.mul_nonneg (Int.natCast_nonneg k') (increment_nonneg cfg)
  unfold instant
  omega

/-- Earlier days end before later ones begin. -/
theorem pairwise_days : (generateTransactionLog build cfg draws).1.Pairwise fun log log' =>
    ∀ r ∈ log.rows, ∀ r' ∈ log'.rows, r.ts < r'.ts := by
  refine (pairwise_dates draws).imp_of_mem ?_
  intro log log' hlog hlog' hlt r hr r' hr'
  obtain ⟨days, m, rfl, hm⟩ := of_mem_log draws hlog
  obtain ⟨days', n, rfl, hn⟩ := of_mem_log draws hlog'
  obtain ⟨k, hk, hts⟩ := of_mem_rows draws days hm hr
  obtain ⟨k', -, hts'⟩ := of_mem_rows draws days' hn hr'
  rw [hts, hts', Timespec.ofTotal_lt_ofTotal]
  exact instant_lt_instant ((Date.days_ofDay_lt hm hn).mp hlt) hk

/-- **Trading hours.** In every run, whatever the random generators yield and however far it gets:
each row's instant is normalised and within 09:00 and 17:00 of its day, no row is before an
earlier one, every row is after all rows of the days before, and after all rows before it of its
own day as long as there is a nanosecond for each iteration. A day has as many rows as were
drawn, and at least eight. -/
theorem rows_in_trading_hours :
    (∀ log ∈ (generateTransactionLog build cfg draws).1, ∃ n, log.date = Date.ofDay n ∧
      minDay ≤ n ∧ n ≤ maxDay ∧ ∀ row ∈ log.rows, row.ts.Normalized ∧
        n * 86400 + 9 * 3600 ≤ row.ts.sec ∧ row.ts.sec < n * 86400 + 17 * 3600) ∧
      ((generateTransactionLog build cfg draws).1.flatMap DayLog.rows).Pairwise
        (fun r r' => r.ts ≤ r'.ts) ∧
      (generateTransactionLog build cfg draws).1.Pairwise
        (fun log log' => ∀ r ∈ log.rows, ∀ r' ∈ log'.rows, r.ts < r'.ts) ∧
      (cfg.iterations.toNat ≤ 28800000000000 → ∀ log ∈ (generateTransactionLog build cfg draws).1,
        log.rows.Pairwise fun r r' => r.ts < r'.ts) ∧
      ∀ i log, (generateTransactionLog build cfg draws).1[i]? = some log →
        log.rows.length = (iterationsCount cfg.iterations (draws.iterations (.ofNat i))).toNat ∧
        8 ≤ log.rows.length := by
  refine ⟨?_, ?_, pairwise_days draws, ?_, fun i log hlog => ?_⟩
  · -- each row, from the instant it is written at
    intro log hlog
    obtain ⟨days, n, rfl, hn⟩ := of_mem_log draws hlog
    refine ⟨n, rfl, hn.1, hn.2, ?_⟩
    intro row hrow
    obtain ⟨k, hk, hts⟩ := of_mem_rows draws days hn hrow
    -- `k` quotients, each rounded down, stay below the eight hours
    have hlt := mul_increment_lt hk
    have hpos : 0 ≤ k * increment cfg :=
      Int.mul_nonneg (Int.natCast_nonneg k) (increment_nonneg cfg)
    rw [hts]
    refine ⟨Timespec.normalized_ofTotal _, ?_⟩
    simp only [Timespec.ofTotal, instant, nineHours]
    omega
  · -- within a day, and across days
    refine List.pairwise_flatMap.mpr ⟨?_, ?_⟩
    · intro log hlog
      obtain ⟨days, n, rfl, hn⟩ := of_mem_log draws hlog
      refine pairwise_rows draws days hn ?_
      intro k k' hlt
      rw [Timespec.ofTotal_le_ofTotal]
      have hmono := Int.mul_le_mul_of_nonneg_right (Int.ofNat_le.mpr hlt.le) (increment_nonneg cfg)
      exact Int.add_le_add_left hmono _
    · exact (pairwise_days draws).imp fun h r hr r' hr' => le_of_lt (h r hr r' hr')
  · intro hiterations log hlog
    obtain ⟨days, n, rfl, hn⟩ := of_mem_log draws hlog
    refine pairwise_rows draws days hn ?_
    intro k k' hlt
    rw [Timespec.ofTotal_lt_ofTotal]
    have hmono := Int.mul_lt_mul_of_pos_right (Int.ofNat_lt.mpr hlt) (increment_pos hiterations)
    exact Int.add_lt_add_left hmono _
  · have hlen := length_rows draws hlog
    exact ⟨hlen, hlen ▸ eight_le_iterationsCount draws (.ofNat i)⟩

end

/-- Where no message throws, the week has five days with eight rows each, an hour apart. -/
theorem firstWeek_rows_in_trading_hours :
    ∃ log, (generateTransactionLog ⟨true⟩ firstWeek firstWeekDraws).1[4]? = some log ∧
      log.rows.length = 8 ∧ log.rows.Pairwise fun r r' => r.ts < r'.ts := by
  have hlog : ((generateTransactionLog ⟨true⟩ firstWeek firstWeekDraws).1[4]?).isSome := by
    decide +kernel
  obtain ⟨log, hlog⟩ := Option.isSome_iff_exists.mp hlog
  have hhours := @rows_in_trading_hours _ ⟨true⟩ _ firstWeekDraws
  exact ⟨log, hlog, (hhours.2.2.2.2 4 log hlog).1,
    hhours.2.2.2.1 (by decide) log (List.mem_of_getElem? hlog)⟩

end TradingDesk.Generator
