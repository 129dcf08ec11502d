import TradingDesk.Generator.Market

/-!
# TradingDesk.Generator.MarketDraws

**The log of the market is a log.** `TransactionLog` takes what is drawn as a function of the day
and the row; here it comes out of one state, draw after draw. Both write the same rows, when
the function is read off the states of the run.
-/

namespace TradingDesk.Generator

open TradingDesk.Utils

variable {G : Type} (e : Engine G) (cfg : Config)

namespace GeneratorState

/-! ### The states of a run -/

/-- The state behind so many rows of a day. -/
def behindRows (days : UInt32) (s : GeneratorState G) : ℕ → GeneratorState G
  | 0 => s
  | k + 1 => ((behindRows days s k).draw e (shouldGenerateError cfg days (.ofNat k))).2

/-- The iterations of a day, and the state in front of its rows. -/
def beforeRows (s : GeneratorState G) : UInt64 × GeneratorState G :=
  (s.randomizeMaxVolume e).iterationsCount e cfg.iterations

/-- The state in front of a day. -/
def beforeDay (s : GeneratorState G) : ℕ → GeneratorState G
  | 0 => s
  | j + 1 =>
    let r := (beforeDay s j).beforeRows e cfg
    r.2.behindRows e cfg (.ofNat j) r.1.toNat

variable {e cfg}

/-- **The rows of a day.** -/
theorem rows_eq {draws : Draws ℚ cfg} {days : UInt32} {s : GeneratorState G} {n : ℕ}
    (h : ∀ j < n, draws.row days (.ofNat j)
      = ((s.behindRows e cfg days j).draw e (shouldGenerateError cfg days (.ofNat j))).1)
    {rounds k : ℕ} (hk : k + rounds = n) (ts : Timespec) :
    (s.behindRows e cfg days k).rows e cfg days rounds (.ofNat k) ts
      = (generateRows cfg draws days rounds (.ofNat k) ts, s.behindRows e cfg days n) := by
  induction rounds generalizing k ts with
  | zero =>
      rw [← hk]
      rfl
  | succ rounds ih =>
      have hnext : (.ofNat k + 1 : UInt64) = .ofNat (k + 1) := by rw [UInt64.ofNat_add]; rfl
      have hrest := ih (k := k + 1) (by omega) (ts.add (increment cfg))
      have hrow :
          (s.behindRows e cfg days k).transaction e (shouldGenerateError cfg days (.ofNat k)) ts
          = (if shouldGenerateError cfg days (.ofNat k) then
              generateErrorTransaction ts (draws.row days (.ofNat k))
            else generateTransaction ts (draws.row days (.ofNat k)),
              s.behindRows e cfg days (k + 1)) := by
        rw [h k (by omega)]
        rfl
      rw [rows, hrow, hnext, hrest, generateRows, hnext]

/-- The count of iterations is within the bounds of its distribution. -/
theorem iterationsCount_within (s : GeneratorState G) :
    cfg.iterations - cfg.iterations / 10 ≤ (s.iterationsCount e cfg.iterations).1 ∧
      (s.iterationsCount e cfg.iterations).1 ≤ cfg.iterations := by
  have hlo := toNat_less_tenth cfg.iterations
  rw [iterationsCount, UInt64.le_iff_toNat_le, UInt64.le_iff_toNat_le]
  split
  · dsimp only
    omega
  · have hle : ((cfg.iterations - cfg.iterations / 10).toNat : ℤ) ≤ cfg.iterations.toNat := by omega
    have hwithin := e.uniform_within hle s.generator
    have hlt := cfg.iterations.toNat_lt
    dsimp only
    rw [UInt64.toNat_ofNat_of_lt' (show _ < 2 ^ 64 by omega)]
    omega

theorem iterationsCount_idem (s : GeneratorState G) :
    Generator.iterationsCount cfg.iterations (s.iterationsCount e cfg.iterations).1
      = (s.iterationsCount e cfg.iterations).1 := by
  rw [Generator.iterationsCount, iterationsCount]
  split <;> rfl

variable (e cfg) in
/-- What the engine yields over a run, by day and row. -/
def drawsOf (s : GeneratorState G) : Draws ℚ cfg where
  iterations day := ((s.beforeDay e cfg day.toNat).beforeRows e cfg).1
  row day i :=
    ((((s.beforeDay e cfg day.toNat).beforeRows e cfg).2.behindRows e cfg day i.toNat).draw e
    (shouldGenerateError cfg day i)).1
  iterations_ge _ := (iterationsCount_within _).1
  iterations_le _ := (iterationsCount_within _).2

/-- **One day.** -/
theorem day_eq (s : GeneratorState G) {j : ℕ} (hj : j < 2 ^ 32) (date : Date) :
    (s.beforeDay e cfg j).day e cfg (.ofNat j) date
      = (generateDay cfg (s.drawsOf e cfg) (.ofNat j) date, s.beforeDay e cfg (j + 1)) := by
  have hday : (UInt32.ofNat j).toNat = j := UInt32.toNat_ofNat_of_lt' hj
  have hrow (i : ℕ) (hi : i < ((s.beforeDay e cfg j).beforeRows e cfg).1.toNat) :
      (s.drawsOf e cfg).row (.ofNat j) (.ofNat i)
        = ((((s.beforeDay e cfg j).beforeRows e cfg).2.behindRows e cfg (.ofNat j) i).draw e
          (shouldGenerateError cfg (.ofNat j) (.ofNat i))).1 := by
    have hlt := ((s.beforeDay e cfg j).beforeRows e cfg).1.toNat_lt
    have hi' : (UInt64.ofNat i).toNat = i := UInt64.toNat_ofNat_of_lt' (show i < 2 ^ 64 by omega)
    simp only [drawsOf, hday, hi']
  have hrows := rows_eq hrow (Nat.zero_add _) ((⟨extractSeconds date, 0⟩ : Timespec).add nineHours)
  have hcount : Generator.iterationsCount cfg.iterations ((s.drawsOf e cfg).iterations (.ofNat j))
      = ((s.beforeDay e cfg j).beforeRows e cfg).1 := by
    simp only [drawsOf, hday]
    exact iterationsCount_idem _
  have hlog := congrArg (DayLog.mk date) (congrArg Prod.fst hrows)
  rw [generateDay, hcount]
  exact Prod.ext hlog (congrArg Prod.snd hrows : _ = _)

/-- **All days.** -/
theorem days_eq {build : FmtBuild} (s : GeneratorState G) {rounds j : ℕ}
    (hj : j + rounds ≤ 2 ^ 32) (itDay : Date) :
    (s.beforeDay e cfg j).days e build cfg rounds (.ofNat j) itDay
      = generateDays build cfg (s.drawsOf e cfg) rounds (.ofNat j) itDay := by
  induction rounds generalizing j itDay with
  | zero => rfl
  | succ rounds ih =>
      rw [days, generateDays]
      cases skipWeekend itDay with
      | none => rfl
      | some itDay =>
          have hnext : (.ofNat j + 1 : UInt32) = .ofNat (j + 1) := (UInt32.ofNat_add j 1).symm
          simp only [day_eq s (by omega : j < 2 ^ 32), hnext]
          cases printCurrentDay build with
          | some what => rfl
          | none =>
              cases printGenerated build with
              | some what => rfl
              | none => simp only [ih (by omega : j + 1 + rounds ≤ 2 ^ 32)]

end GeneratorState

/-- **The market writes a log** of the generator: for every engine and every configuration, there
are draws with which the model that takes them as given writes the very same rows, and ends in
the same way. -/
theorem market_writes_a_log (build : FmtBuild) (g : G) :
    ∃ draws : Draws ℚ cfg, marketLog e build cfg g = generateTransactionLog build cfg draws := by
  refine ⟨(GeneratorState.make e g).drawsOf e cfg, ?_⟩
  rw [marketLog, generateTransactionLog]
  cases Date.make cfg.year.toNat 1 1 with
  | none => rfl
  | some startDay =>
      have hdays := cfg.days.toNat_lt
      exact GeneratorState.days_eq (j := 0) _ (by omega) startDay

end TradingDesk.Generator
