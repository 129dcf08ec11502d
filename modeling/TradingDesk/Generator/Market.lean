import Mathlib.Algebra.Order.Ring.Rat
import TradingDesk.Core.Climbs
import TradingDesk.Core.Decimal
import TradingDesk.Generator.TransactionLog

/-!
# TradingDesk.Generator.Market

**The market of the generator** (`security_generator` and `generator_state` of `generator.cpp`).
Every security walks from its start price, and a step of the walk that leads down is not taken.
The volumes of a day are below a bound that is drawn in its morning.

The random engine is a parameter: what a uniform distribution yields is within its bounds, and
a normal distribution may yield anything.
-/

namespace TradingDesk.Generator

open TradingDesk.Core
open TradingDesk.Utils

/-! ### The engine -/

/-- `std::minstd_rand` with the distributions that draw from it. -/
structure Engine (G : Type) where
  uniform (lo hi : ℤ) (g : G) : ℤ × G
  uniform_within {lo hi : ℤ} (h : lo ≤ hi) (g : G) :
    lo ≤ (uniform lo hi g).1 ∧ (uniform lo hi g).1 ≤ hi
  normal (mean stddev : ℚ) (g : G) : ℚ × G

variable {G : Type} (e : Engine G)

/-! ### Securities -/

/-- `security_generator`. -/
structure SecurityGenerator where
  last : ℚ
  mean : ℚ
  stddev : ℚ

/-- The constructor. -/
def SecurityGenerator.make (l : ℚ) : SecurityGenerator := ⟨l, -(l / 10000), l / 10000⟩

/-- `operator()`. -/
def SecurityGenerator.call (s : SecurityGenerator) (g : G) : ℚ × SecurityGenerator × G :=
  let increment := e.normal s.mean s.stddev g
  let last := max s.last (s.last + increment.1)
  (last, { s with last := last }, increment.2)

/-- `agents`. -/
def agents : List (List UInt8) := [ascii "bob", ascii "alice", ascii "oscar"]

/-- `counterparties`. -/
def counterparties : List (List UInt8) :=
  [ascii "burger", ascii "borscht", ascii "sashimi",
    ascii "baguette", ascii "kaese", ascii "dumpling"]

/-- `securities`. -/
def securities : List (List UInt8) :=
  [ascii "mmm", ascii "axp", ascii "aapl", ascii "ba",
    ascii "cat", ascii "cvx", ascii "csco", ascii "ko",
    ascii "dis", ascii "xom", ascii "ge", ascii "gs",
      ascii "hd", ascii "ibm", ascii "intc", ascii "jnj",
    ascii "jpm", ascii "mcd", ascii "mrk", ascii "msft",
      ascii "nke", ascii "pfe", ascii "pg", ascii "trv",
    ascii "utx", ascii "unh", ascii "vz", ascii "v", ascii "wmt", ascii "dwdp"]

theorem length_securities : securities.length = 30 := rfl

/-- `securities_start_price`. -/
def securitiesStartPrice : Vector ℚ 30 :=
  #v[200, 100, 170, 400, 120, 120, 50, 50, 110, 70,
    10, 190, 180, 130, 50, 130, 100, 170, 77, 100, 80, 40,
    10, 120, 120, 260, 50, 140, 90, 990]

/-! ### The state -/

/-- `generator_state`, with the bounds of `_volume`, which is the only distribution that changes. -/
structure GeneratorState (G : Type) where
  generator : G
  volumeLo : ℤ
  volumeHi : ℤ
  securities : Vector SecurityGenerator 30

namespace GeneratorState

/-- `max_volume`. -/
def maxVolume : ℤ := 10000

/-- `randomize_max_volume`. -/
def randomizeMaxVolume (s : GeneratorState G) : GeneratorState G :=
  let hi := e.uniform (maxVolume - 1000) (maxVolume + 1000) s.generator
  { s with generator := hi.2, volumeLo := minVolume, volumeHi := hi.1 }

/-- The constructor, with the engine as it was seeded. -/
def make (g : G) : GeneratorState G :=
  randomizeMaxVolume e ⟨g, 1, maxVolume / minVolume, securitiesStartPrice.map .make⟩

/-- The index of an entry of a table. -/
theorem index_within {n : ℕ} (h : 0 < n) (g : G) :
    0 ≤ (e.uniform 0 (n - 1) g).1 ∧ (e.uniform 0 (n - 1) g).1 < n := by
  have hwithin := @Engine.uniform_within G e 0 (n - 1) (by omega) g
  exact ⟨hwithin.1, by omega⟩

theorem security_index_lt (g : G) :
    (e.uniform 0 (Generator.securities.length - 1) g).1.toNat < 30 := by
  have h := index_within e (by decide : 0 < Generator.securities.length) g
  rw [length_securities] at h ⊢
  omega

/-- `security`: the index of a security and its new price. -/
def security (s : GeneratorState G) : ℤ × ℚ × GeneratorState G :=
  let index := e.uniform 0 (Generator.securities.length - 1) s.generator
  have hindex : index.1.toNat < 30 := security_index_lt e s.generator
  let price := s.securities[index.1.toNat].call e index.2
  (index.1, price.1,
    { s with generator := price.2.2, securities := s.securities.set index.1.toNat price.2.1 })

/-- A draw from `_volume`. `volume` multiplies it by `min_volume`, and `error_volume` further. -/
def volumeUnits (s : GeneratorState G) : ℤ × GeneratorState G :=
  let units := e.uniform s.volumeLo s.volumeHi s.generator
  (units.1, { s with generator := units.2 })

/-- `agent`. -/
def agent (s : GeneratorState G) : ℤ × GeneratorState G :=
  let index := e.uniform 0 (agents.length - 1) s.generator
  (index.1, { s with generator := index.2 })

/-- `counterparty`. -/
def counterparty (s : GeneratorState G) : ℤ × GeneratorState G :=
  let index := e.uniform 0 (counterparties.length - 1) s.generator
  (index.1, { s with generator := index.2 })

/-- `iterations_count`. -/
def iterationsCount (s : GeneratorState G) (maxIterations : UInt64) : UInt64 × GeneratorState G :=
  if maxIterations < 20 then (maxIterations, s)
  else
    let count :=
      e.uniform (maxIterations - maxIterations / 10).toNat maxIterations.toNat s.generator
    (.ofNat count.1.toNat, { s with generator := count.2 })

/-! ### Transactions -/

/-- What `generate_transaction` draws, and `generate_error_transaction`, which does not draw an
agent. -/
def draw (error : Bool) (s : GeneratorState G) : Draw ℚ × GeneratorState G :=
  let sv := s.security e
  let volume := sv.2.2.volumeUnits e
  let agent := if error then (errorAgent, volume.2) else volume.2.agent e
  let counterparty := agent.2.counterparty e
  (⟨sv.1, sv.2.1, volume.1, agent.1, counterparty.1⟩, counterparty.2)

/-- The row of a draw. -/
def transaction (error : Bool) (ts : Timespec) (s : GeneratorState G) : Row ℚ × GeneratorState G :=
  let d := s.draw e error
  (if error then generateErrorTransaction ts d.1 else generateTransaction ts d.1, d.2)

/-- The rows of a day from row `i` on, with the number of rows left. -/
def rows (cfg : Config) (days : UInt32) :
    Nat → UInt64 → Timespec → GeneratorState G → List (Row ℚ) × GeneratorState G
  | 0, _, _, s => ([], s)
  | rounds + 1, i, ts, s =>
    let row := s.transaction e (shouldGenerateError cfg days i) ts
    let rest := rows cfg days rounds (i + 1) (ts.add (increment cfg)) row.2
    (row.1 :: rest.1, rest.2)

/-- The body of the loop over the days, behind `skip_weekend`. -/
def day (cfg : Config) (days : UInt32) (date : Date) (s : GeneratorState G) :
    DayLog ℚ × GeneratorState G :=
  let ts := (⟨extractSeconds date, 0⟩ : Timespec).add nineHours
  let thisDayIterations := (s.randomizeMaxVolume e).iterationsCount e cfg.iterations
  let r := thisDayIterations.2.rows e cfg days thisDayIterations.1.toNat 0 ts
  (⟨date, r.1⟩, r.2)

/-- The loop over the days, with the number of days left: what was generated, and why it ended
early. -/
def days (build : FmtBuild) (cfg : Config) :
    Nat → UInt32 → Date → GeneratorState G → List (DayLog ℚ) × Option Failure
  | 0, _, _, _ => ([], none)
  | rounds + 1, n, itDay, s =>
    match skipWeekend itDay with
    | none => ([], some .outOfRange)
    | some itDay =>
      match printCurrentDay build with
      | some what => ([], some (.exception what))
      | none =>
        let d := s.day e cfg n itDay
        match printGenerated build with
        | some what => ([d.1], some (.exception what))
        | none =>
          let rest := days build cfg rounds (n + 1) itDay.next d.2
          (d.1 :: rest.1, rest.2)

/-- No message throws. -/
theorem days_of_specifier {build : FmtBuild} {cfg : Config}
    (h : build.deprecatedNSpecifier = true) (rounds : Nat) (n : UInt32) (itDay : Date)
    (s : GeneratorState G) :
    s.days e build cfg (rounds + 1) n itDay
      = (skipWeekend itDay).elim ([], some .outOfRange) fun itDay =>
          let rest := (s.day e cfg n itDay).2.days e build cfg rounds (n + 1) itDay.next
          ((s.day e cfg n itDay).1 :: rest.1, rest.2) := by
  rw [days, printCurrentDay_eq, printGenerated_eq, if_pos h]
  cases skipWeekend itDay <;> rfl

/-- The first message throws. -/
theorem days_of_no_specifier {build : FmtBuild} {cfg : Config}
    (h : build.deprecatedNSpecifier = false) (rounds : Nat) (n : UInt32) (itDay : Date)
    (s : GeneratorState G) : (s.days e build cfg rounds n itDay).1 = [] := by
  cases rounds with
  | zero => rfl
  | succ rounds =>
      rw [days, printCurrentDay_eq, h]
      cases skipWeekend itDay <;> rfl

end GeneratorState

/-- `generate_transaction_log`, from the seeded engine on. -/
def marketLog (build : FmtBuild) (cfg : Config) (g : G) : List (DayLog ℚ) × Option Failure :=
  match Date.make cfg.year.toNat 1 1 with
  | none => ([], some .outOfRange)
  | some startDay => (GeneratorState.make e g).days e build cfg cfg.days.toNat 0 startDay

/-! ### One transaction -/

namespace GeneratorState

/-- The last price of a security. -/
def level (s : GeneratorState G) (k : ℤ) : ℚ := (s.securities[k.toNat]?.map (·.last)).getD 0

/-- A security has a price that is its new level, and no level has fallen. -/
theorem security_climbs (s : GeneratorState G) :
    s.level (s.security e).1 ≤ (s.security e).2.1 ∧
      (s.security e).2.1 = (s.security e).2.2.level (s.security e).1 ∧
      ∀ k, s.level k ≤ (s.security e).2.2.level k := by
  have hlt := security_index_lt e s.generator
  have hmax (t : SecurityGenerator) (g : G) : t.last ≤ (t.call e g).1 := le_max_left _ _
  refine ⟨?_, ?_, fun k => ?_⟩
  · simpa [level, security, hlt] using hmax _ _
  · simp [level, security, hlt, SecurityGenerator.call]
  · by_cases hk : k.toNat = (e.uniform 0 (Generator.securities.length - 1) s.generator).1.toNat
    · simp [level, security, hk, hlt, SecurityGenerator.call]
    · simp [level, security, Ne.symm hk]

/-- The volumes of a day. -/
structure Morning (s : GeneratorState G) : Prop where
  lo : s.volumeLo = 100
  hi : 9000 ≤ s.volumeHi ∧ s.volumeHi ≤ 11000

theorem morning_randomizeMaxVolume (s : GeneratorState G) : (s.randomizeMaxVolume e).Morning :=
  ⟨rfl, e.uniform_within (by decide) s.generator⟩

end GeneratorState

/-- What a transaction may be. -/
structure InRange (error : Bool) (row : Row ℚ) : Prop where
  security : 0 ≤ row.security ∧ row.security < securities.length
  agent : 0 ≤ row.agent ∧ row.agent < agents.length
  counterparty : 0 ≤ row.counterparty ∧ row.counterparty < counterparties.length
  volume : (if error then 1000000000 else 10000) ≤ row.volume ∧
    row.volume ≤ if error then 110000000000 else 1100000
  culprit : error = true → row.agent = errorAgent

namespace GeneratorState

variable {e}

theorem Morning.volumeUnits {s : GeneratorState G} (h : s.Morning) :
    100 ≤ (s.volumeUnits e).1 ∧ (s.volumeUnits e).1 ≤ 11000 := by
  have hle : s.volumeLo ≤ s.volumeHi := by
    have := h.lo
    have := h.hi.1
    omega
  have hwithin := e.uniform_within hle s.generator
  exact ⟨h.lo ▸ hwithin.1, hwithin.2.trans h.hi.2⟩

/-- **Step lemma.** A transaction is within its ranges, and its price is the new level of its
security. -/
theorem Morning.transaction {s : GeneratorState G} (h : s.Morning) (error : Bool) (ts : Timespec) :
    InRange error (s.transaction e error ts).1 ∧ (s.transaction e error ts).2.Morning ∧
      Climbs Row.security Row.price s.level [(s.transaction e error ts).1]
        (s.transaction e error ts).2.level := by
  obtain ⟨habove, hbelow, hle⟩ := security_climbs e s
  have hsecurity := index_within e (by decide : 0 < Generator.securities.length) s.generator
  have hmorning : (s.security e).2.2.Morning := ⟨h.lo, h.hi⟩
  obtain ⟨hlo, hhi⟩ := hmorning.volumeUnits (e := e)
  have hagents (g : G) := index_within e (by decide : 0 < agents.length) g
  have hcounterparties (g : G) := index_within e (by decide : 0 < counterparties.length) g
  cases error with
  | false =>
      refine ⟨⟨hsecurity, hagents _, hcounterparties _,
        ?_, fun hne => absurd hne Bool.false_ne_true⟩,
        ⟨h.lo, h.hi⟩, Climbs.singleton hle habove hbelow.le⟩
      show 10000 ≤ 100 * ((s.security e).2.2.volumeUnits e).1 ∧
        100 * ((s.security e).2.2.volumeUnits e).1 ≤ 1100000
      omega
  | true =>
      have herror : 0 ≤ errorAgent ∧ errorAgent < agents.length := by decide
      refine ⟨⟨hsecurity, herror, hcounterparties _, ?_, fun _ => rfl⟩, ⟨h.lo, h.hi⟩,
        Climbs.singleton hle habove hbelow.le⟩
      show 1000000000 ≤ 100 * ((s.security e).2.2.volumeUnits e).1 * 100000 ∧
        100 * ((s.security e).2.2.volumeUnits e).1 * 100000 ≤ 110000000000
      omega

/-! ### Days -/

/-- **Run lemma.** The rows of a day. -/
theorem Morning.rows {cfg : Config} {days : UInt32}
    {s : GeneratorState G} (h : s.Morning) (rounds : Nat)
    (i : UInt64) (ts : Timespec) :
    Climbs Row.security Row.price s.level (s.rows e cfg days rounds i ts).1
        (s.rows e cfg days rounds i ts).2.level ∧
      ∀ k row, (s.rows e cfg days rounds i ts).1[k]? = some row →
        InRange (shouldGenerateError cfg days (i + .ofNat k)) row := by
  induction rounds generalizing i ts s with
  | zero => exact ⟨Climbs.nil fun _ => le_refl _, fun k row hrow => by cases hrow⟩
  | succ rounds ih =>
      obtain ⟨hrow, hmorning, hclimbs⟩ := h.transaction (e := e) (shouldGenerateError cfg days i) ts
      obtain ⟨hrest, hrange⟩ := ih hmorning (i + 1) (ts.add (increment cfg))
      refine ⟨hclimbs.append hrest, fun k row hk => ?_⟩
      cases k with
      | zero =>
          obtain rfl := Option.some.inj hk
          have hi : i + .ofNat 0 = i := UInt64.add_zero i
          exact hi.symm ▸ hrow
      | succ k =>
          have hi : i + .ofNat (k + 1) = i + 1 + .ofNat k := by
            rw [UInt64.add_assoc, UInt64.add_comm 1, UInt64.ofNat_add]
            rfl
          exact hi ▸ hrange k row hk

/-- A day, from the evening before it. -/
theorem day_climbs (cfg : Config) (n : UInt32) (date : Date) (s : GeneratorState G) :
    Climbs Row.security Row.price s.level (s.day e cfg n date).1.rows (s.day e cfg n date).2.level ∧
      ∀ k row, (s.day e cfg n date).1.rows[k]? = some row →
        InRange (shouldGenerateError cfg n (.ofNat k)) row := by
  have hmorning : ((s.randomizeMaxVolume e).iterationsCount e cfg.iterations).2.Morning := by
    rw [iterationsCount]
    split
    · exact morning_randomizeMaxVolume e s
    · exact ⟨(morning_randomizeMaxVolume e s).lo, (morning_randomizeMaxVolume e s).hi⟩
  have hlevel : ((s.randomizeMaxVolume e).iterationsCount e cfg.iterations).2.level = s.level := by
    rw [iterationsCount]
    split <;> rfl
  have hrows := @Morning.rows G e cfg n _ hmorning
    ((s.randomizeMaxVolume e).iterationsCount e cfg.iterations).1.toNat 0
    ((⟨extractSeconds date, 0⟩ : Timespec).add nineHours)
  simp only [UInt64.zero_add, hlevel] at hrows
  exact hrows

/-- **Run lemma.** All days. -/
theorem days_climb (build : FmtBuild) (cfg : Config) (rounds : Nat) (n : UInt32) (itDay : Date)
    (s : GeneratorState G) :
    (∃ levels, Climbs Row.security Row.price s.level
        ((s.days e build cfg rounds n itDay).1.flatMap DayLog.rows) levels) ∧
      ∀ j log, (s.days e build cfg rounds n itDay).1[j]? = some log →
        ∀ k row, log.rows[k]? = some row →
          InRange (shouldGenerateError cfg (n + .ofNat j) (.ofNat k)) row := by
  cases hbuild : build.deprecatedNSpecifier with
  | false =>
      rw [days_of_no_specifier e hbuild]
      exact ⟨⟨s.level, Climbs.nil fun _ => le_refl _⟩, fun j log hlog => by cases hlog⟩
  | true =>
      induction rounds generalizing n itDay s with
      | zero => exact ⟨⟨s.level, Climbs.nil fun _ => le_refl _⟩, fun j log hlog => by cases hlog⟩
      | succ rounds ih =>
          rw [days_of_specifier e hbuild]
          cases skipWeekend itDay with
          | none =>
              exact ⟨⟨s.level, Climbs.nil fun _ => le_refl _⟩, fun j log hlog => by cases hlog⟩
          | some itDay =>
              obtain ⟨hday, hrange⟩ := @day_climbs G e cfg n itDay s
              obtain ⟨⟨levels, hrest⟩, hranges⟩ := ih (n + 1) itDay.next (s.day e cfg n itDay).2
              refine ⟨⟨levels, hday.append hrest⟩, fun j log hlog => ?_⟩
              cases j with
              | zero =>
                  obtain rfl := Option.some.inj hlog
                  have hn : n + .ofNat 0 = n := UInt32.add_zero n
                  exact hn.symm ▸ hrange
              | succ j =>
                  have hn : n + .ofNat (j + 1) = n + 1 + .ofNat j := by
                    rw [UInt32.add_assoc, UInt32.add_comm 1, UInt32.ofNat_add]
                    rfl
                  exact hn ▸ hranges j log hlog

end GeneratorState

/-- What is true of all days. -/
theorem marketLog_climbs (build : FmtBuild) (cfg : Config) (g : G) :
    (∃ levels, Climbs Row.security Row.price (GeneratorState.make e g).level
        ((marketLog e build cfg g).1.flatMap DayLog.rows) levels) ∧
      ∀ j log, (marketLog e build cfg g).1[j]? = some log → ∀ k row, log.rows[k]? = some row →
        InRange (shouldGenerateError cfg (.ofNat j) (.ofNat k)) row := by
  rw [marketLog]
  cases Date.make cfg.year.toNat 1 1 with
  | none => exact ⟨⟨_, Climbs.nil fun _ => le_refl _⟩, fun j log hlog => by cases hlog⟩
  | some startDay =>
      simpa only [UInt32.zero_add]
        using GeneratorState.days_climb build cfg cfg.days.toNat 0 startDay
          (GeneratorState.make e g)

/-- **Prices never fall.** In every run of the generator, whatever the engine yields and however far
the run gets: of two transactions in the same security, on the same day or not and in error or
not, the later one is not at a lower price, and none is below the start price of its security. -/
theorem prices_never_fall (build : FmtBuild) (cfg : Config) (g : G) :
    ((marketLog e build cfg g).1.flatMap DayLog.rows).Pairwise
        (fun row row' => row.security = row'.security → row.price ≤ row'.price) ∧
      ∀ row ∈ (marketLog e build cfg g).1.flatMap DayLog.rows, ∃ start,
        securitiesStartPrice[row.security.toNat]? = some start ∧ start ≤ row.price := by
  obtain ⟨⟨levels, hclimbs⟩, hrange⟩ := marketLog_climbs e build cfg g
  refine ⟨hclimbs.ordered, fun row hrow => ?_⟩
  have habove := hclimbs.above row hrow
  obtain ⟨log, hlog, hmem⟩ := List.mem_flatMap.mp hrow
  obtain ⟨j, hj⟩ := List.mem_iff_getElem?.mp hlog
  obtain ⟨k, hk⟩ := List.mem_iff_getElem?.mp hmem
  have hsecurity := (hrange j log hj k row hk).security
  have hlt : row.security.toNat < 30 := by
    rw [length_securities] at hsecurity
    omega
  refine ⟨securitiesStartPrice[row.security.toNat], Vector.getElem?_eq_getElem hlt, ?_⟩
  simpa [GeneratorState.level, GeneratorState.make, GeneratorState.randomizeMaxVolume,
    SecurityGenerator.make, hlt] using habove

/-- **The errors can be told by their volume.** In every run, a transaction has a volume of at least
a billion exactly if it is one of the errors that were injected, and then it is of the last agent.
All others are between ten thousand and about a million. -/
theorem errors_stand_out (build : FmtBuild) (cfg : Config) (g : G) {i k : ℕ} {log : DayLog ℚ}
    {row : Row ℚ} (hlog : (marketLog e build cfg g).1[i]? = some log)
    (hrow : log.rows[k]? = some row) :
    InRange (shouldGenerateError cfg (.ofNat i) (.ofNat k)) row ∧
      (shouldGenerateError cfg (.ofNat i) (.ofNat k) = true ↔ 1000000000 ≤ row.volume) := by
  have hrange := (marketLog_climbs e build cfg g).2 i log hlog k row hrow
  refine ⟨hrange, ?_⟩
  obtain ⟨hlo, hhi⟩ := hrange.volume
  cases herror : shouldGenerateError cfg (.ofNat i) (.ofNat k) with
  | false =>
      rw [herror] at hhi
      refine iff_of_false Bool.false_ne_true (not_le.mpr (lt_of_le_of_lt hhi ?_))
      decide
  | true =>
      rw [herror] at hlo
      exact iff_of_true rfl hlo

/-- An engine that always yields the lower bound, or the mean. -/
def lowEngine : Engine Unit where
  uniform lo _ g := (lo, g)
  uniform_within h _ := ⟨le_refl _, h⟩
  normal mean _ g := (mean, g)

/-- Three days of eight transactions, ten of them errors. -/
def threeDays : Config := ⟨3, 2008, 10, minIterations, UInt64.le_refl _⟩

/-- Where no message throws, all of the second day are errors. -/
theorem three_days_stand_out :
    ∃ log row, (marketLog lowEngine ⟨true⟩ threeDays ()).1[1]? = some log ∧
      log.rows[7]? = some row ∧
      InRange (shouldGenerateError threeDays (.ofNat 1) (.ofNat 7)) row ∧
      (shouldGenerateError threeDays (.ofNat 1) (.ofNat 7) = true ↔ 1000000000 ≤ row.volume) := by
  have hlog : (((marketLog lowEngine ⟨true⟩ threeDays ()).1[1]?).bind
      fun log => log.rows[7]?).isSome := by decide +kernel
  obtain ⟨row, hrow⟩ := Option.isSome_iff_exists.mp hlog
  obtain ⟨log, hlog, hrow⟩ := Option.bind_eq_some_iff.mp hrow
  exact ⟨log, row, hlog, hrow, errors_stand_out lowEngine _ _ () hlog hrow⟩

/-! ### Entries -/

/-- `create_entries`: the keys, with what is put under them. -/
def createEntries (kind : List UInt8) (names : List (List UInt8)) :
    List (List UInt8 × List UInt8) :=
  names.mapIdx fun i name => (kind ++ ascii "." ++ intText i, name)

/-- All entries, in the order in which `main` creates them. -/
def entries : List (List UInt8 × List UInt8) :=
  createEntries (ascii "agent") agents ++ createEntries (ascii "counterparty") counterparties
    ++ createEntries (ascii "security") securities

/-- An index refers to a name. -/
def Refers (kind : List UInt8) (names : List (List UInt8)) (index : ℤ) : Prop :=
  ∃ name, names[index.toNat]? = some name ∧ (kind ++ ascii "." ++ intText index, name) ∈ entries

theorem mem_createEntries {names : List (List UInt8)}
    {index : ℤ} (h : 0 ≤ index ∧ index < names.length)
    (kind : List UInt8) :
    ∃ name, names[index.toNat]? = some name ∧
      (kind ++ ascii "." ++ intText index, name) ∈ createEntries kind names := by
  have hlt : index.toNat < names.length := by omega
  refine ⟨names[index.toNat], List.getElem?_eq_getElem hlt,
    List.mem_mapIdx.mpr ⟨index.toNat, hlt, ?_⟩⟩
  rw [Int.toNat_of_nonneg h.1]

/-- **Transactions refer to entries**: every agent, counterparty and security of every transaction
is the index of an entry that `main` has created, and no two entries have the same key. -/
theorem rows_refer_to_entries (build : FmtBuild) (cfg : Config) (g : G) :
    (entries.map Prod.fst).Nodup ∧ ∀ log ∈ (marketLog e build cfg g).1, ∀ row ∈ log.rows,
      Refers (ascii "agent") agents row.agent ∧
      Refers (ascii "counterparty") counterparties row.counterparty ∧
      Refers (ascii "security") securities row.security := by
  refine ⟨by decide +kernel, fun log hlog row hrow => ?_⟩
  obtain ⟨j, hj⟩ := List.mem_iff_getElem?.mp hlog
  obtain ⟨k, hk⟩ := List.mem_iff_getElem?.mp hrow
  have hrange := (marketLog_climbs e build cfg g).2 j log hj k row hk
  obtain ⟨agent, hagent, hagents⟩ := mem_createEntries hrange.agent (ascii "agent")
  obtain ⟨counterparty, hcounterparty, hcounterparties⟩ :=
    mem_createEntries hrange.counterparty (ascii "counterparty")
  obtain ⟨security, hsecurity, hsecurities⟩ := mem_createEntries hrange.security (ascii "security")
  refine ⟨⟨agent, hagent, ?_⟩, ⟨counterparty, hcounterparty, ?_⟩, ⟨security, hsecurity, ?_⟩⟩
  · exact List.mem_append_left _ (List.mem_append_left _ hagents)
  · exact List.mem_append_left _ (List.mem_append_right _ hcounterparties)
  · exact List.mem_append_right _ hsecurities

end TradingDesk.Generator
