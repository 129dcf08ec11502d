import TradingDesk.Utils.Format
import TradingDesk.Utils.Weekday

/-!
# TradingDesk.Generator.TransactionLog

**The transaction log generator** (`generator.cpp`, `generate_transaction_log`): one
round per day, which skips to the next weekday and writes a random number of rows,
spread over eight hours from nine in the morning on.

What the random generators yield is a parameter, `Draws`, and the only thing required of
it is that `iterations_count` stays within the bounds of its distribution. A date out of
the calendar's range throws and ends the run, and so does a format; that of the message at the
beginning of a day throws as the library is compiled here, so the run ends with no row. A
database error ends it too, and the rows before it are the first rows of the run described
here.
-/

namespace TradingDesk.Generator

open TradingDesk.Utils

/-! ### Configuration -/

/-- `min_iterations`. -/
def minIterations : UInt64 := 8

/-- `config`, as `parse_config` returns it. -/
structure Config where
  days : UInt32
  year : UInt16
  errors : UInt64
  iterations : UInt64
  /-- The program exits on fewer. -/
  minIterations_le : minIterations ≤ iterations

/-- The check of `parse_config`; `none` is the exit. -/
def parseConfig (days : UInt32) (year : UInt16) (errors iterations : UInt64) : Option Config :=
  if h : iterations < minIterations then none
  else some ⟨days, year, errors, iterations, UInt64.not_lt.mp h⟩

/-- The defaults of the options are a configuration. -/
example : (parseConfig 365 2008 10 minIterations).isSome := by decide

/-! ### Rows -/

/-- What the random generators yield for one row. The price is the one that the walk of
the security has reached; the volume is in units of `min_volume`. -/
structure Draw (F : Type) where
  security : Int
  price : F
  volume : Int
  agent : Int
  counterparty : Int

/-- What they yield over a run: `iterations_count` draws from the upper tenth of the
configured count. -/
structure Draws (F : Type) (cfg : Config) where
  iterations : UInt32 → UInt64
  row : UInt32 → UInt64 → Draw F
  iterations_ge (day : UInt32) : cfg.iterations - cfg.iterations / 10 ≤ iterations day
  iterations_le (day : UInt32) : iterations day ≤ cfg.iterations

/-- The bounds of `iterations_count` are those of the natural numbers. -/
theorem toNat_less_tenth (n : UInt64) : (n - n / 10).toNat = n.toNat - n.toNat / 10 := by
  have hdiv : (n / 10).toNat = n.toNat / 10 := UInt64.toNat_div n 10
  have hle : n / 10 ≤ n := by
    rw [UInt64.le_iff_toNat_le, hdiv]
    omega
  rw [UInt64.toNat_sub_of_le _ _ hle, hdiv]

/-- A row of the table, in the order of its columns. -/
structure Row (F : Type) where
  ts : Timespec
  security : Int
  price : F
  volume : Int
  agent : Int
  counterparty : Int

/-- `generator_state::min_volume`. -/
def minVolume : Int := 100

/-- `generator_state::error_agent`: the last of the three agents. -/
def errorAgent : Int := 2

variable {F : Type}

/-- `generate_transaction`. -/
def generateTransaction (ts : Timespec) (draw : Draw F) : Row F :=
  ⟨ts, draw.security, draw.price, minVolume * draw.volume, draw.agent, draw.counterparty⟩

/-- `generate_error_transaction`. -/
def generateErrorTransaction (ts : Timespec) (draw : Draw F) : Row F :=
  ⟨ts, draw.security, draw.price, minVolume * draw.volume * 100000, errorAgent, draw.counterparty⟩

/-- `should_generate_error`. -/
def shouldGenerateError (cfg : Config) (day : UInt32) (i : UInt64) : Bool :=
  if day ≠ cfg.days / 2 then false
  else if cfg.iterations < cfg.errors then true
  else if cfg.iterations / 2 < cfg.errors then decide (i < cfg.errors)
  else
    let startError := cfg.iterations / 2 - cfg.errors
    let endError := startError + cfg.errors
    decide (startError ≤ i ∧ i < endError)

/-! ### Days -/

/-- `generator_state::iterations_count`. -/
def iterationsCount (maxIterations drawn : UInt64) : UInt64 :=
  if maxIterations < 20 then maxIterations else drawn

/-- `hours{9}`, in nanoseconds. -/
def nineHours : Int := 32400000000000

/-- `increment`: eight hours divided by the iterations, in unsigned 64-bit arithmetic. -/
def increment (cfg : Config) : Int := (28800000000000 / cfg.iterations : UInt64).toNat

/-- The rows of a day from row `i` on, with the number of rows left. -/
def generateRows (cfg : Config) (draws : Draws F cfg) (days : UInt32) :
    Nat → UInt64 → Timespec → List (Row F)
  | 0, _, _ => []
  | rounds + 1, i, ts =>
    let draw := draws.row days i
    (if shouldGenerateError cfg days i then generateErrorTransaction ts draw
      else generateTransaction ts draw)
      :: generateRows cfg draws days rounds (i + 1) (ts.add (increment cfg))

/-- The rows written in one round of the loop over the days. -/
structure DayLog (F : Type) where
  date : Date
  rows : List (Row F)

/-- The body of the loop over the days, behind `skip_weekend`. -/
def generateDay (cfg : Config) (draws : Draws F cfg) (days : UInt32) (date : Date) : DayLog F :=
  let ts := (⟨extractSeconds date, 0⟩ : Timespec).add nineHours
  let thisDayIterations := iterationsCount cfg.iterations (draws.iterations days)
  ⟨date, generateRows cfg draws days thisDayIterations.toNat 0 ts⟩

/-- `skip_weekend`; `none` is a range exception. -/
def skipWeekend (itDay : Date) : Option Date :=
  itDay.dayOfWeek.map fun dow =>
    if dow = 0 then itDay.next else if dow = 6 then itDay.next.next else itDay

/-- Why a run ends early. -/
inductive Failure
  /-- A `std::runtime_error`, a `format_error` included. -/
  | exception (what : String)
  /-- A day that the calendar does not have. -/
  | outOfRange
  deriving DecidableEq

/-- `fmt::print` at the beginning of a day. -/
def printCurrentDay (build : FmtBuild) : Option String :=
  print build [.text "Current day ", .field none, .text " - ", .field (some 'n'),
    .text " days to go\n"] [.string, .integer]

/-- `fmt::print` behind the rows of a day. -/
def printGenerated (build : FmtBuild) : Option String :=
  print build [.text "Generated ", .field (some 'n'), .text " transactions in ", .field none,
    .text "\n"] [.integer, .duration]

/-- The loop over the days, with the number of days left: what was generated, and why it ended
early. -/
def generateDays (build : FmtBuild) (cfg : Config) (draws : Draws F cfg) :
    Nat → UInt32 → Date → List (DayLog F) × Option Failure
  | 0, _, _ => ([], none)
  | rounds + 1, days, itDay =>
    match skipWeekend itDay with
    | none => ([], some .outOfRange)
    | some itDay =>
      match printCurrentDay build with
      | some what => ([], some (.exception what))
      | none =>
        let log := generateDay cfg draws days itDay
        match printGenerated build with
        | some what => ([log], some (.exception what))
        | none =>
          let rest := generateDays build cfg draws rounds (days + 1) itDay.next
          (log :: rest.1, rest.2)

/-- `generate_transaction_log`. -/
def generateTransactionLog (build : FmtBuild) (cfg : Config) (draws : Draws F cfg) :
    List (DayLog F) × Option Failure :=
  match Date.make cfg.year.toNat 1 1 with
  | none => ([], some .outOfRange)
  | some startDay => generateDays build cfg draws cfg.days.toNat 0 startDay

/-! ### The messages -/

section

variable {build : FmtBuild}

theorem printCurrentDay_eq : printCurrentDay build
    = if build.deprecatedNSpecifier then none else some "invalid type specifier" := by
  simp [printCurrentDay, print]

theorem printGenerated_eq : printGenerated build
    = if build.deprecatedNSpecifier then none else some "invalid type specifier" := by
  simp [printGenerated, print]

variable {cfg : Config} {draws : Draws F cfg}

/-- No message throws. -/
theorem generateDays_of_specifier (h : build.deprecatedNSpecifier = true) (rounds : Nat)
    (days : UInt32) (itDay : Date) :
    generateDays build cfg draws (rounds + 1) days itDay
      = (skipWeekend itDay).elim ([], some .outOfRange) fun itDay =>
          let rest := generateDays build cfg draws rounds (days + 1) itDay.next
          (generateDay cfg draws days itDay :: rest.1, rest.2) := by
  rw [generateDays, printCurrentDay_eq, printGenerated_eq, if_pos h]
  cases skipWeekend itDay <;> rfl

/-- The first message throws. -/
theorem generateDays_of_no_specifier (h : build.deprecatedNSpecifier = false) (rounds : Nat)
    (days : UInt32) (itDay : Date) : (generateDays build cfg draws rounds days itDay).1 = [] := by
  cases rounds with
  | zero => rfl
  | succ rounds =>
      rw [generateDays, printCurrentDay_eq, h]
      cases skipWeekend itDay <;> rfl

/-- **Without the specifier nothing is generated.** -/
theorem generateTransactionLog_of_no_specifier (h : build.deprecatedNSpecifier = false) :
    (generateTransactionLog build cfg draws).1 = [] := by
  rw [generateTransactionLog]
  cases Date.make cfg.year.toNat 1 1 with
  | none => rfl
  | some startDay => exact generateDays_of_no_specifier h _ _ _

end

end TradingDesk.Generator
