import TradingDesk.Core.Decimal
import TradingDesk.Simulator.Broker
import TradingDesk.Simulator.Series
import TradingDesk.Utils.Format

/-!
# TradingDesk.Simulator.FastTrading

**The fast mode** (`quotes_in_cols` of `quote.hpp` and `quote.cpp`, `fast_trading` of
`simulator.cpp`): quotes are generated in batches, into five columns that are overwritten by
every batch, and inserted column by column. A batch starts at the instant at which the one
before it has ended.

The database is a parameter, which accepts an insertion or fails it. The counter of the loop
is a 64-bit integer; a count that is no multiple of the batch might let it wrap, which is why
the loop is run for a number of rounds. In front of the loop and behind it the mode prints
numbers, and as the library is compiled here the first of these messages throws.
-/

namespace TradingDesk.Simulator

open TradingDesk.Core
open TradingDesk.Utils (Timespec FmtBuild print)

/-! ### Quotes in columns -/

/-- `qdb_ts_double_point`. -/
structure DoublePoint where
  timestamp : Timespec
  value : ℚ

/-- `quotes_in_cols`. -/
structure QuotesInCols where
  origin : List UInt8
  symbol : List UInt8
  volumes : List DoublePoint
  opens : List DoublePoint
  highs : List DoublePoint
  lows : List DoublePoint
  closes : List DoublePoint

namespace QuotesInCols

/-- The five calls of `resize`. -/
def resizeAll (q : QuotesInCols) (count : ℕ) : QuotesInCols :=
  let resized (column : List DoublePoint) := resize ⟨Timespec.zero, 0⟩ column count
  { q with volumes := resized q.volumes, opens := resized q.opens, highs := resized q.highs,
           lows := resized q.lows, closes := resized q.closes }

/-- The assignments of one round: all five points get the same timestamp. -/
def setRow (q : QuotesInCols) (i : ℕ) (currentTime : Timespec) (v : Values) : QuotesInCols :=
  { q with volumes := q.volumes.set i ⟨currentTime, v.volume⟩,
           opens := q.opens.set i ⟨currentTime, v.open⟩,
           highs := q.highs.set i ⟨currentTime, v.high⟩,
           lows := q.lows.set i ⟨currentTime, v.low⟩,
           closes := q.closes.set i ⟨currentTime, v.close⟩ }

/-- `++current_time.tv_sec`. Signed overflow is undefined. -/
def nextSecond (t : Timespec) : Option Timespec :=
  if t.sec < 2 ^ 63 - 1 then some ⟨t.sec + 1, t.nsec⟩ else none

/-- A round of the loop of `generate`. -/
def generateRow (s : QuotesInCols × QuoteGenerator × Timespec) (i : ℕ) :
    Option (QuotesInCols × QuoteGenerator × Timespec) := do
  let (q, g, currentTime) := s
  let (v, g) ← g.call 30
  let q := q.setRow i currentTime v
  let currentTime ← nextSecond currentTime
  return (q, g, currentTime)

/-- `generate`. -/
def generate (q : QuotesInCols) (g : QuoteGenerator) (startAt : Timespec) (count : UInt64) :
    Option (QuotesInCols × QuoteGenerator × Timespec) :=
  (List.range count.toNat).foldlM generateRow (q.resizeAll count.toNat, g, startAt)

end QuotesInCols

/-! ### Insertions -/

/-- The columns of a time series. -/
inductive Column
  | volume
  | «open»
  | high
  | low
  | close
  deriving Repr, DecidableEq

/-- The arguments of `qdb_ts_double_insert`. -/
structure Insertion where
  tsName : List UInt8
  column : Column
  points : List DoublePoint

/-- The insertions of `insert_into_qdb`. -/
def QuotesInCols.insertions (q : QuotesInCols) : List Insertion :=
  let tsName := q.origin ++ ascii "." ++ q.symbol
  [⟨tsName, .volume, q.volumes⟩, ⟨tsName, .open, q.opens⟩, ⟨tsName, .high, q.highs⟩,
    ⟨tsName, .low, q.lows⟩, ⟨tsName, .close, q.closes⟩]

/-- One insertion after the other, up to the first one that fails. Whether the database accepts an
insertion may depend on what was inserted before it. -/
def insertAll (accepts : List Insertion → Insertion → Bool) :
    List Insertion → List Insertion → Bool × List Insertion
  | inserted, [] => (true, inserted)
  | inserted, i :: insertions =>
    if accepts inserted i then insertAll accepts (inserted ++ [i]) insertions else (false, inserted)

/-- `insert_into_qdb`. -/
def insertIntoQdb (accepts : List Insertion → Insertion → Bool) (inserted : List Insertion)
    (q : QuotesInCols) : Bool × List Insertion :=
  insertAll accepts inserted q.insertions

/-! ### The loop over the batches -/

/-- `min_iterations`. Irreducible: nothing is to unfold a loop into its thousand rounds. -/
@[irreducible] def minIterations : UInt64 := 1000

theorem toNat_minIterations : minIterations.toNat = 1000 := by
  rw [minIterations]
  rfl

/-- What `parse_config` checks of the iterations. -/
def acceptsIterations (iterations : UInt64) : Bool := iterations % minIterations = 0

/-- `fast_trading::operator()`, its variables, and what was inserted so far. -/
structure FastTrading where
  i : UInt64
  startTime : Timespec
  quotes : QuotesInCols
  generator : QuoteGenerator
  inserted : List Insertion

namespace FastTrading

/-- In front of the loop. -/
def start (now : Timespec) (draws : Draws 5) : FastTrading :=
  ⟨0, now, ⟨ascii "bloom", ascii "AAPL", [], [], [], [], []⟩, .make 100 5 draws, []⟩

/-- The body of the loop, and the step of its counter. -/
def batch (accepts : List Insertion → Insertion → Bool) (s : FastTrading) :
    Option Failure × FastTrading :=
  match s.quotes.generate s.generator s.startTime minIterations with
  | none => (some .undefined, s)
  | some (quotes, generator, startTime) =>
    let (inserts, inserted) := insertIntoQdb accepts s.inserted quotes
    if inserts then (none, ⟨s.i + minIterations, startTime, quotes, generator, inserted⟩)
    else (some (.exception "cannot insert quotes"), ⟨s.i, startTime, quotes, generator, inserted⟩)

/-- The loop, for so many rounds. It ends with a failure, or without one behind its last batch. -/
def loop (accepts : List Insertion → Insertion → Bool) (count : UInt64) :
    ℕ → FastTrading → Option (Option Failure × FastTrading)
  | 0, _ => none
  | rounds + 1, s =>
    if s.i < count then
      match batch accepts s with
      | (none, s) => loop accepts count rounds s
      | (some failure, s) => some (some failure, s)
    else some (none, s)

/-- `fmt::print` in front of the loop. -/
def printGenerating (build : FmtBuild) : Option String :=
  print build [.text "generating ", .field (some 'n'), .text " points\n"] [.integer]

/-- `fmt::print` behind it. -/
def printInsertions (build : FmtBuild) : Option String :=
  print build [.text "insertions per second: ", .field (some 'n'), .text "\n"] [.integer]

/-- `fast_trading::operator()`, with at most so many rounds of its loop. -/
def call (build : FmtBuild) (accepts : List Insertion → Insertion → Bool) (draws : Draws 5)
    (now : Timespec) (count : UInt64) (rounds : ℕ) : Option (Option Failure × FastTrading) :=
  match printGenerating build with
  | some what => some (some (.exception what), start now draws)
  | none =>
    (loop accepts count rounds (start now draws)).map fun
      | (none, s) => ((printInsertions build).map .exception, s)
      | (some failure, s) => (some failure, s)

theorem printGenerating_eq {build : FmtBuild} : printGenerating build
    = if build.deprecatedNSpecifier then none else some "invalid type specifier" := by
  simp [printGenerating, print]

theorem printInsertions_eq {build : FmtBuild} : printInsertions build
    = if build.deprecatedNSpecifier then none else some "invalid type specifier" := by
  simp [printInsertions, print]

end FastTrading

/-! ### One batch -/

/-- So many seconds later. -/
def secondsAfter (t : Timespec) (k : ℕ) : Timespec := ⟨t.sec + k, t.nsec⟩

theorem secondsAfter_add (t : Timespec) (k l : ℕ) :
    secondsAfter (secondsAfter t k) l = secondsAfter t (k + l) := by
  simp only [secondsAfter, Nat.cast_add, add_assoc]

/-- The first `i` of `n` points are one second apart. -/
structure FilledTo (start : Timespec) (n i : ℕ) (column : List DoublePoint) : Prop where
  length_eq : column.length = n
  seconds : (column.take i).map (·.timestamp) = (List.range i).map (secondsAfter start)

theorem FilledTo.set {start : Timespec} {n i : ℕ} {column : List DoublePoint}
    (h : FilledTo start n i column) (hi : i < n) (x : ℚ) :
    FilledTo start n (i + 1) (column.set i ⟨secondsAfter start i, x⟩) where
  length_eq := by rw [List.length_set, h.length_eq]
  seconds := by
    rw [take_add_one_set (by rw [h.length_eq]; exact hi), List.map_append, h.seconds,
      List.range_succ, List.map_append]
    rfl

namespace QuotesInCols

/-- The five columns. -/
def columns (q : QuotesInCols) : List (List DoublePoint) :=
  [q.volumes, q.opens, q.highs, q.lows, q.closes]

/-- A round sets one point of every column. -/
theorem columns_setRow {q : QuotesInCols} {i : ℕ} {t : Timespec} {v : Values}
    {column : List DoublePoint} (h : column ∈ (q.setRow i t v).columns) :
    ∃ column' ∈ q.columns, ∃ x, column = column'.set i ⟨t, x⟩ := by
  simp only [columns, setRow, List.mem_cons, List.not_mem_nil, or_false] at h ⊢
  rcases h with rfl | rfl | rfl | rfl | rfl
  · exact ⟨_, Or.inl rfl, _, rfl⟩
  · exact ⟨_, Or.inr (Or.inl rfl), _, rfl⟩
  · exact ⟨_, Or.inr (Or.inr (Or.inl rfl)), _, rfl⟩
  · exact ⟨_, Or.inr (Or.inr (Or.inr (Or.inl rfl))), _, rfl⟩
  · exact ⟨_, Or.inr (Or.inr (Or.inr (Or.inr rfl))), _, rfl⟩

theorem columns_resizeAll {q : QuotesInCols} {n : ℕ} {column : List DoublePoint}
    (h : column ∈ (q.resizeAll n).columns) : column.length = n := by
  simp only [columns, resizeAll, List.mem_cons, List.not_mem_nil, or_false] at h
  rcases h with rfl | rfl | rfl | rfl | rfl <;> exact length_resize _ _ _

variable {q : QuotesInCols} {g : QuoteGenerator} {t : Timespec}

/-- **Step lemma.** -/
theorem generateRow_eq (hlast : 0 < g.last) (ht : t.sec < 2 ^ 63 - 1) (i : ℕ) :
    ∃ v g', g'.last = g.last ∧
      generateRow (q, g, t) i = some (q.setRow i t v, g', secondsAfter t 1) := by
  have hthirty : 2 ≤ (30 : UInt32).toNat := by decide
  obtain ⟨v, g', hcall⟩ := QuoteGenerator.exists_call hthirty hlast
  refine ⟨v, g', (QuoteGenerator.call_ends hthirty hcall).2.2, ?_⟩
  simp only [generateRow, hcall, nextSecond, if_pos ht, Option.bind_eq_bind, Option.bind_some,
    Option.pure_def]
  rfl

/-- **Run lemma.** After `i` rounds the first `i` points of every column are one second apart, and
the next one is due a second later. -/
theorem foldlM_generateRow {n : ℕ} (hcolumns : ∀ column ∈ q.columns, column.length = n)
    (hlast : 0 < g.last) (ht : t.sec + n < 2 ^ 63) {i : ℕ} (hi : i ≤ n) :
    ∃ q' g', (List.range i).foldlM generateRow (q, g, t) = some (q', g', secondsAfter t i) ∧
      q'.origin = q.origin ∧ q'.symbol = q.symbol ∧ g'.last = g.last ∧
      ∀ column ∈ q'.columns, FilledTo t n i column := by
  induction i with
  | zero =>
      refine ⟨q, g, ?_, rfl, rfl, rfl, fun column h => ⟨hcolumns column h, rfl⟩⟩
      rw [secondsAfter, Nat.cast_zero, add_zero]
      rfl
  | succ i ih =>
      obtain ⟨q', g', hloop, horigin, hsymbol, hlast', hfilled⟩ := ih (by omega)
      obtain ⟨v, g'', hlast'', hrow⟩ := @generateRow_eq q' g' (secondsAfter t i)
        (hlast'.symm ▸ hlast) (by show t.sec + i < _; omega) i
      refine ⟨q'.setRow i (secondsAfter t i) v, g'', ?_, horigin, hsymbol, hlast''.trans hlast', ?_⟩
      · rw [List.range_succ, List.foldlM_append, hloop]
        simp only [Option.bind_eq_bind, Option.bind_some, List.foldlM_cons, List.foldlM_nil, hrow,
          secondsAfter_add, Option.pure_def]
      · intro column h
        obtain ⟨column', h', x, rfl⟩ := columns_setRow h
        exact (hfilled column' h').set (by omega) x

/-- **A batch is a series**: every column has as many points as were asked for, one second apart,
and the next batch starts a second after the last one. -/
theorem generate_eq {count : UInt64} (hlast : 0 < g.last) (ht : t.sec + count.toNat < 2 ^ 63) :
    ∃ q' g', q.generate g t count = some (q', g', secondsAfter t count.toNat) ∧
      q'.origin = q.origin ∧ q'.symbol = q.symbol ∧ g'.last = g.last ∧
      ∀ column ∈ q'.columns,
        column.map (·.timestamp) = (List.range count.toNat).map (secondsAfter t) := by
  obtain ⟨q', g', hloop, horigin, hsymbol, hlast', hfilled⟩ :=
    @foldlM_generateRow (q.resizeAll count.toNat) g t count.toNat
      (fun _ h => columns_resizeAll h) hlast ht count.toNat le_rfl
  refine ⟨q', g', hloop, horigin, hsymbol, hlast', fun column h => ?_⟩
  have hcolumn := hfilled column h
  rw [← hcolumn.seconds, List.take_of_length_le (by rw [hcolumn.length_eq])]

end QuotesInCols

/-! ### All batches -/

/-- The points of a column, in the order of their insertion. -/
def pointsOf (tsName : List UInt8) (column : Column) (inserted : List Insertion) :
    List DoublePoint :=
  (inserted.filter fun i => i.tsName = tsName ∧ i.column = column).flatMap (·.points)

theorem pointsOf_append (tsName : List UInt8) (column : Column)
    (inserted inserted' : List Insertion) :
    pointsOf tsName column (inserted ++ inserted')
      = pointsOf tsName column inserted ++ pointsOf tsName column inserted' := by
  rw [pointsOf, List.filter_append, List.flatMap_append]
  rfl

/-- Each of the columns is inserted once. -/
theorem QuotesInCols.pointsOf_insertions (q : QuotesInCols) (column : Column) :
    pointsOf (q.origin ++ ascii "." ++ q.symbol) column q.insertions ∈ q.columns := by
  cases column <;> simp [pointsOf, insertions, columns]

theorem QuotesInCols.tsName_of_mem_insertions (q : QuotesInCols) {i : Insertion}
    (h : i ∈ q.insertions) : i.tsName = q.origin ++ ascii "." ++ q.symbol := by
  simp only [insertions, List.mem_cons, List.not_mem_nil, or_false] at h
  rcases h with rfl | rfl | rfl | rfl | rfl <;> rfl

/-- All insertions are made, or one of them was not accepted. -/
theorem insertAll_eq (accepts : List Insertion → Insertion → Bool)
    (inserted insertions : List Insertion) :
    insertAll accepts inserted insertions = (true, inserted ++ insertions) ∨
      (insertAll accepts inserted insertions).1 = false ∧ ∃ made i, accepts made i = false := by
  induction insertions generalizing inserted with
  | nil => exact Or.inl (by rw [insertAll, List.append_nil])
  | cons i insertions ih =>
      rw [insertAll]
      cases haccepts : accepts inserted i with
      | false => exact Or.inr ⟨rfl, inserted, i, haccepts⟩
      | true =>
          have hrest := ih (inserted ++ [i])
          rwa [List.append_assoc] at hrest

namespace FastTrading

/-- **The invariant** behind so many points: the series has no gap up to here, and goes on a second
later. -/
structure Inv (now : Timespec) (k : ℕ) (s : FastTrading) : Prop where
  i_eq : s.i.toNat = k
  startTime_eq : s.startTime = secondsAfter now k
  last_pos : 0 < s.generator.last
  origin_eq : s.quotes.origin = ascii "bloom"
  symbol_eq : s.quotes.symbol = ascii "AAPL"
  tsName_eq : ∀ i ∈ s.inserted, i.tsName = ascii "bloom.AAPL"
  series : ∀ column, (pointsOf (ascii "bloom.AAPL") column s.inserted).map (·.timestamp)
    = (List.range k).map (secondsAfter now)

theorem inv_start (now : Timespec) (draws : Draws 5) : Inv now 0 (start now draws) where
  i_eq := rfl
  startTime_eq := by rw [secondsAfter, Nat.cast_zero, add_zero]; rfl
  last_pos := by norm_num [start, QuoteGenerator.make]
  origin_eq := rfl
  symbol_eq := rfl
  tsName_eq := fun _ h => absurd h List.not_mem_nil
  series := fun _ => rfl

/-- The five insertions of a batch go on with the series. -/
theorem series_append {now : Timespec} {k n : ℕ} {q : QuotesInCols} {inserted : List Insertion}
    (horigin : q.origin = ascii "bloom") (hsymbol : q.symbol = ascii "AAPL")
    (hseries : ∀ column, (pointsOf (ascii "bloom.AAPL") column inserted).map (·.timestamp)
      = (List.range k).map (secondsAfter now))
    (hseconds : ∀ column ∈ q.columns,
      column.map (·.timestamp) = (List.range n).map (secondsAfter (secondsAfter now k)))
    (column : Column) :
    (pointsOf (ascii "bloom.AAPL") column (inserted ++ q.insertions)).map (·.timestamp)
      = (List.range (k + n)).map (secondsAfter now) := by
  have hname : q.origin ++ ascii "." ++ q.symbol = ascii "bloom.AAPL" := by
    rw [horigin, hsymbol]
    rfl
  have hbatch := hseconds _ (q.pointsOf_insertions column)
  rw [hname] at hbatch
  rw [pointsOf_append, List.map_append, hseries, hbatch, List.range_add, List.map_append,
    List.map_map]
  simp only [Function.comp_def, ← secondsAfter_add]

variable {accepts : List Insertion → Insertion → Bool} {now : Timespec} {k : ℕ} {s : FastTrading}

/-- **Step lemma.** A batch adds a thousand points to every column, or an insertion fails. -/
theorem Inv.batch (h : Inv now k s) (hk : k + 1000 < 2 ^ 64)
    (hsec : now.sec + (k + 1000) < 2 ^ 63) :
    ∃ failure s', s.batch accepts = (failure, s') ∧
      ((failure = none ∧ Inv now (k + 1000) s') ∨
        (failure = some (.exception "cannot insert quotes") ∧
          ∃ made i, accepts made i = false)) := by
  obtain ⟨q, g, hgenerate, horigin, hsymbol, hlast, hseconds⟩ :=
    @QuotesInCols.generate_eq s.quotes s.generator s.startTime minIterations h.last_pos
      (by rw [h.startTime_eq, toNat_minIterations]; show now.sec + k + _ < _; push_cast; omega)
  rw [h.startTime_eq, toNat_minIterations] at hseconds
  rw [h.origin_eq] at horigin
  rw [h.symbol_eq] at hsymbol
  have hstart : secondsAfter s.startTime minIterations.toNat = secondsAfter now (k + 1000) := by
    rw [h.startTime_eq, toNat_minIterations, secondsAfter_add]
  rw [FastTrading.batch, hgenerate, hstart]
  rcases insertAll_eq accepts s.inserted q.insertions with hinserts | ⟨hinserts, hrejects⟩
  · simp only [insertIntoQdb, hinserts, if_true]
    refine ⟨none, _, rfl, Or.inl ⟨rfl, ?_, rfl, hlast ▸ h.last_pos, horigin, hsymbol, ?_, ?_⟩⟩
    · rw [UInt64.toNat_add, h.i_eq, toNat_minIterations, Nat.mod_eq_of_lt hk]
    · intro i hi
      rcases List.mem_append.mp hi with hi | hi
      · exact h.tsName_eq i hi
      · rw [q.tsName_of_mem_insertions hi, horigin, hsymbol]
        rfl
    · exact series_append horigin hsymbol h.series hseconds
  · simp only [insertIntoQdb, hinserts, Bool.false_eq_true, if_false]
    exact ⟨_, _, rfl, Or.inr ⟨rfl, hrejects⟩⟩

/-- **Run lemma.** With so many batches left, the loop makes them all, or ends at an insertion that
fails. The counter meets the count, and does not wrap on its way there. -/
theorem Inv.loop {count : UInt64} {m : ℕ} (h : Inv now k s) (hcount : count.toNat = k + 1000 * m)
    (hsec : now.sec + count.toNat < 2 ^ 63) :
    ∃ failure s', (∀ rounds, m < rounds → loop accepts count rounds s = some (failure, s')) ∧
      ((failure = none ∧ Inv now count.toNat s') ∨
        (failure = some (.exception "cannot insert quotes") ∧
          ∃ made i, accepts made i = false)) := by
  induction m generalizing k s with
  | zero =>
      refine ⟨none, s, fun rounds hrounds => ?_, Or.inl ⟨rfl, hcount ▸ h⟩⟩
      obtain ⟨rounds, rfl⟩ := Nat.exists_eq_add_one_of_ne_zero hrounds.ne'
      have hdone : ¬ s.i < count := by rw [UInt64.lt_iff_toNat_lt, h.i_eq]; omega
      rw [FastTrading.loop, if_neg hdone]
  | succ m ih =>
      have hmore : s.i < count := by rw [UInt64.lt_iff_toNat_lt, h.i_eq]; omega
      have hlt := count.toNat_lt
      obtain ⟨failure, s', hbatch, ⟨rfl, h'⟩ | ⟨rfl, hrejects⟩⟩ :=
        @Inv.batch accepts now k s h (by omega) (by omega)
      · obtain ⟨failure, s'', hrest, hend⟩ := ih h' (by omega)
        refine ⟨failure, s'', fun rounds hrounds => ?_, hend⟩
        obtain ⟨rounds, rfl⟩ := Nat.exists_eq_add_one_of_ne_zero (Nat.ne_zero_of_lt hrounds)
        rw [FastTrading.loop, if_pos hmore, hbatch]
        exact hrest rounds (by omega)
      · refine ⟨_, s', fun rounds hrounds => ?_, Or.inr ⟨rfl, hrejects⟩⟩
        obtain ⟨rounds, rfl⟩ := Nat.exists_eq_add_one_of_ne_zero (Nat.ne_zero_of_lt hrounds)
        rw [FastTrading.loop, if_pos hmore, hbatch]

/-- **The loop inserts one series without gaps.** It ends for every count that the configuration
accepts, and does not fail unless an insertion does. Then every column has, in this order, one point
in every second from the first instant on, as many as were asked for. -/
theorem loop_inserts_series (accepts : List Insertion → Insertion → Bool) (draws : Draws 5)
    (now : Timespec) (count : UInt64) (hcount : acceptsIterations count = true)
    (hsec : now.sec + count.toNat < 2 ^ 63) :
    ∃ failure s, (∀ rounds, count.toNat / 1000 < rounds →
        loop accepts count rounds (start now draws) = some (failure, s)) ∧
      ((failure = none ∧ Inv now count.toNat s) ∨
        (failure = some (.exception "cannot insert quotes") ∧
          ∃ made i, accepts made i = false)) := by
  have hbatches : count.toNat = 0 + 1000 * (count.toNat / 1000) := by
    have hmod : count.toNat % 1000 = 0 := by
      have hzero : (count % minIterations).toNat = 0 := by
        rw [of_decide_eq_true hcount]
        rfl
      rwa [UInt64.toNat_mod, toNat_minIterations] at hzero
    omega
  exact @Inv.loop accepts now 0 (start now draws) count _ (inv_start now draws) hbatches hsec

/-- The fast mode ends, whatever number of rounds it is given beyond those that it needs. Unless it
was stopped by an insertion that failed, every column has, in this order, one point in every
second from the first instant on, as many as were asked for, and no other series has any. -/
def InsertsSeries (build : FmtBuild) (accepts : List Insertion → Insertion → Bool)
    (draws : Draws 5) (now : Timespec) (count : UInt64) : Prop :=
  ∃ failure s, (∀ rounds, count.toNat / 1000 < rounds →
      call build accepts draws now count rounds = some (failure, s)) ∧
    ((failure = some (.exception "cannot insert quotes") ∧ ∃ made i, accepts made i = false) ∨
      (∀ i ∈ s.inserted, i.tsName = ascii "bloom.AAPL") ∧
        ∀ column, (pointsOf (ascii "bloom.AAPL") column s.inserted).map (·.timestamp)
          = (List.range count.toNat).map (secondsAfter now))

/-- Without the specifier, nothing is inserted. -/
theorem call_of_no_specifier {build : FmtBuild} (h : build.deprecatedNSpecifier = false)
    (accepts : List Insertion → Insertion → Bool) (draws : Draws 5) (now : Timespec)
    (count : UInt64) (rounds : ℕ) :
    call build accepts draws now count rounds
      = some (some (.exception "invalid type specifier"), start now draws) := by
  rw [call, printGenerating_eq, h]
  rfl

/-- With it, the messages throw nothing. -/
theorem call_of_specifier {build : FmtBuild} (h : build.deprecatedNSpecifier = true)
    (accepts : List Insertion → Insertion → Bool) (draws : Draws 5) (now : Timespec)
    (count : UInt64) (rounds : ℕ) :
    call build accepts draws now count rounds
      = loop accepts count rounds (start now draws) := by
  rw [call, printGenerating_eq, printInsertions_eq, h]
  rcases loop accepts count rounds (start now draws) with _ | ⟨_ | failure, s⟩ <;> rfl

/-- **Where the fast mode inserts one series without gaps.** For every count that the configuration
accepts, and whichever insertions fail: if and only if integers have the presentation `n`, or no
point is asked for. -/
theorem fast_mode_inserts_series_iff (build : FmtBuild)
    (accepts : List Insertion → Insertion → Bool) (draws : Draws 5) (now : Timespec)
    (count : UInt64) (hcount : acceptsIterations count = true)
    (hsec : now.sec + count.toNat < 2 ^ 63) :
    InsertsSeries build accepts draws now count ↔
      build.deprecatedNSpecifier = true ∨ count = 0 := by
  cases hbuild : build.deprecatedNSpecifier with
  | true =>
      refine iff_of_true ?_ (Or.inl rfl)
      obtain ⟨failure, s, hloop, hend⟩ := loop_inserts_series accepts draws now count hcount hsec
      refine ⟨failure, s, fun rounds hrounds => ?_, ?_⟩
      · rw [call_of_specifier hbuild]
        exact hloop rounds hrounds
      · rcases hend with ⟨-, hinv⟩ | hrejected
        · exact Or.inr ⟨hinv.tsName_eq, hinv.series⟩
        · exact Or.inl hrejected
  | false =>
      have hcall := call_of_no_specifier hbuild accepts draws now count
      constructor
      · rintro ⟨failure, s, hends, hseries⟩
        -- the message has thrown in front of the first batch
        have hout := (hcall (count.toNat / 1000 + 1)).symm.trans (hends _ (Nat.lt_succ_self _))
        rw [Option.some.injEq, Prod.mk.injEq] at hout
        obtain ⟨rfl, rfl⟩ := hout
        rcases hseries with ⟨hrejected, -⟩ | ⟨-, hseries⟩
        · simp at hrejected
        · have hlen := congrArg List.length (hseries .volume)
          rw [List.length_map, List.length_map, List.length_range] at hlen
          exact Or.inr (UInt64.toNat_inj.mp hlen.symm)
      · rintro (h | rfl)
        · cases h
        · exact ⟨_, _, fun rounds _ => hcall rounds,
            Or.inr ⟨fun i hi => absurd hi List.not_mem_nil, fun column => rfl⟩⟩

/-- Draws of zero. -/
def steadyDraws : Draws 5 := ⟨fun _ => 0, fun _ => by norm_num⟩

/-- As the library is compiled here, a thousand points are asked for and none is inserted. -/
theorem thousand_points_not_inserted :
    acceptsIterations 1000 = true ∧
      (∀ rounds, call .vendored (fun _ _ => true) steadyDraws ⟨0, 0⟩ 1000 rounds
        = some (some (.exception "invalid type specifier"), start ⟨0, 0⟩ steadyDraws)) ∧
      ¬ InsertsSeries .vendored (fun _ _ => true) steadyDraws ⟨0, 0⟩ 1000 := by
  have hcall := @call_of_no_specifier .vendored rfl (fun _ _ => true) steadyDraws ⟨0, 0⟩ 1000
  refine ⟨by decide +kernel, hcall, ?_⟩
  rintro ⟨failure, s, hends, ⟨-, made, i, hrejected⟩ | ⟨-, hseries⟩⟩
  · cases hrejected
  · have hout := (hcall 2).symm.trans (hends 2 (by decide))
    rw [Option.some.injEq, Prod.mk.injEq] at hout
    obtain ⟨rfl, rfl⟩ := hout
    have hlen := congrArg List.length (hseries .volume)
    rw [List.length_map, List.length_map, List.length_range] at hlen
    exact absurd hlen (by decide)

/-- Two batches from the epoch on, where no message throws. -/
theorem fast_mode_two_batches :
    ∃ failure s, (∀ rounds, 2 < rounds →
        call ⟨true⟩ (fun _ _ => true) steadyDraws ⟨0, 0⟩ 2000 rounds = some (failure, s)) ∧
      ∀ column, (pointsOf (ascii "bloom.AAPL") column s.inserted).map (·.timestamp)
        = (List.range 2000).map (secondsAfter ⟨0, 0⟩) := by
  obtain ⟨failure, s, hends, ⟨-, made, i, hrejected⟩ | ⟨-, hseries⟩⟩ :=
    (fast_mode_inserts_series_iff ⟨true⟩ (fun _ _ => true) steadyDraws ⟨0, 0⟩ 2000
      (by decide +kernel) (by decide)).mpr (Or.inl rfl)
  · cases hrejected
  · exact ⟨failure, s, hends, hseries⟩

end FastTrading

end TradingDesk.Simulator
