import TradingDesk.Simulator.Trading

/-!
# TradingDesk.Simulator.Rows

**Rows.** A trade is inserted as one point in each of the four columns of the series of its
trader, and a quote as one in each of the five columns of the series of its broker and
product. All points of a row have one timestamp, and they are inserted one by one: what
readers of the series may rely on is that its columns go together.
-/

namespace TradingDesk.Simulator

open TradingDesk.Core
open TradingDesk.Utils (Timespec)

section

variable {T M : Type} [UnorderedMap T (List UInt8) QuoteGenerator] [UnorderedMap M (List UInt8) ℚ]
variable {products : List Product} {accepts : List PointInsertion → PointInsertion → Bool}

/-! ### Rows -/

/-- Points of one instant, for the columns of one series. -/
structure Row where
  tsName : List UInt8
  timestamp : Timespec
  columns : List (List UInt8 × PointContent)

/-- One insertion for each column. -/
def Row.insertions (row : Row) : List PointInsertion :=
  row.columns.map fun c => ⟨row.tsName, c.1, row.timestamp, c.2⟩

def Trade.row (t : Trade) : Row :=
  ⟨t.trader, t.timestamp,
    [(ascii "product", .blob t.product), (ascii "counterparty", .blob t.counterparty),
    (ascii "volume", .double t.volume), (ascii "value", .double t.value)]⟩

def Quote.row (q : Quote) : Row :=
  ⟨tsName q.origin q.symbol, q.timestamp, [(ascii "volume", .double q.columns.volume),
    (ascii "open", .double q.columns.open), (ascii "high", .double q.columns.high),
    (ascii "low", .double q.columns.low), (ascii "close", .double q.columns.close)]⟩

/-- The rows of a deal. -/
def Deal.rows (deal : Deal) : List Row := deal.trade.row :: deal.quotes.map Quote.row

theorem Deal.insertions_eq (deal : Deal) : deal.insertions = deal.rows.flatMap Row.insertions := by
  rw [Deal.insertions, Deal.rows, List.flatMap_cons, List.flatMap_map]
  rfl

/-- The columns of a row, with their types. -/
def Row.signature (row : Row) : List (List UInt8 × ColumnType) :=
  row.columns.map fun c => (c.1, c.2.type)

theorem Trade.signature_row (t : Trade) : t.row.signature = traderColumns := rfl

theorem Quote.signature_row (q : Quote) : q.row.signature = productColumns := rfl

/-! ### Columns that go together -/

/-- The instants of the points of a column, in the order of their insertion. -/
def timesOf (name column : List UInt8) (inserted : List PointInsertion) : List Timespec :=
  (inserted.filter fun i => decide (i.tsName = name ∧ i.column = column)).map (·.timestamp)

theorem timesOf_append (name column : List UInt8) (inserted inserted' : List PointInsertion) :
    timesOf name column (inserted ++ inserted')
      = timesOf name column inserted ++ timesOf name column inserted' := by
  rw [timesOf, List.filter_append, List.map_append]
  rfl

/-- One point for each column of the row, and none for others. -/
theorem timesOf_insertions {row : Row} (hnodup : (row.columns.map Prod.fst).Nodup)
    (name column : List UInt8) :
    timesOf name column row.insertions
      = if row.tsName = name ∧ column ∈ row.columns.map Prod.fst then [row.timestamp] else [] := by
  obtain ⟨n, t, columns⟩ := row
  simp only [Row.insertions] at hnodup ⊢
  induction columns with
  | nil => simp [timesOf]
  | cons c columns ih =>
      obtain ⟨hc, hrest⟩ := List.nodup_cons.mp hnodup
      rw [List.map_cons, ← List.singleton_append, timesOf_append, ih hrest]
      by_cases hn : n = name
      · by_cases hcolumn : c.1 = column
        · subst hcolumn
          simp [timesOf, hn, hc]
        · have hne : ¬ column = c.1 := fun heq => hcolumn heq.symm
          simp only [List.map_cons, List.mem_cons, hne, false_or]
          simp [timesOf, hcolumn]
      · simp [timesOf, hn]

theorem timesOf_of_ne {row : Row} {name : List UInt8}
    (h : row.tsName ≠ name) (column : List UInt8) :
    timesOf name column row.insertions = [] := by
  rw [timesOf, List.map_eq_nil_iff, List.filter_eq_nil_iff]
  intro i hi
  obtain ⟨c, -, rfl⟩ := List.mem_map.mp hi
  simp [h]

/-- Rows of a series have all of its columns. -/
theorem timesOf_rows {name column : List UInt8} {columns : List (List UInt8)}
    (hnodup : columns.Nodup)
    (hcolumn : column ∈ columns) {rows : List Row}
    (h : ∀ row ∈ rows, row.tsName = name → row.columns.map Prod.fst = columns) :
    timesOf name column (rows.flatMap Row.insertions)
      = (rows.filter fun row => decide (row.tsName = name)).map (·.timestamp) := by
  induction rows with
  | nil => rfl
  | cons row rows ih =>
      obtain ⟨hrow, hrows⟩ := List.forall_mem_cons.mp h
      rw [List.flatMap_cons, timesOf_append, ih hrows]
      by_cases hname : row.tsName = name
      · rw [timesOf_insertions (by rwa [hrow hname]), hrow hname, if_pos ⟨hname, hcolumn⟩,
          List.filter_cons_of_pos (by simpa using hname)]
        rfl
      · rw [List.filter_cons_of_neg (by simpa using hname), timesOf_of_ne hname, List.nil_append]

/-- All columns of the series have points of the same instants. -/
def Even (inserted : List PointInsertion) (name : List UInt8)
    (columns : List (List UInt8)) : Prop :=
  ∃ times, ∀ column ∈ columns, timesOf name column inserted = times

/-- They have, but a front of the columns has one point more. -/
def Torn (inserted : List PointInsertion) (name : List UInt8)
    (columns : List (List UInt8)) : Prop :=
  ∃ times late front, front <+: columns ∧
    ∀ column ∈ columns, timesOf name column inserted = times ++ if column ∈ front
      then [late] else []

theorem Even.torn {inserted : List PointInsertion} {name : List UInt8} {columns : List (List UInt8)}
    (h : Even inserted name columns) : Torn inserted name columns := by
  obtain ⟨times, htimes⟩ := h
  refine ⟨times, Timespec.zero, [], List.nil_prefix, fun column hcolumn => ?_⟩
  rw [htimes column hcolumn, if_neg List.not_mem_nil, List.append_nil]

/-- The series, with their columns. A trader has no period in its name. -/
def IsSeries (name : List UInt8) (columns : List (List UInt8)) : Prop :=
  (∃ origin symbol, name = tsName origin symbol) ∧ columns = productColumns.map Prod.fst ∨
    46 ∉ name ∧ columns = traderColumns.map Prod.fst

theorem mem_tsName (origin symbol : List UInt8) : 46 ∈ tsName origin symbol := by
  have h : ascii "." = [46] := by decide
  simp [tsName, h]

theorem IsSeries.nodup {name : List UInt8} {columns : List (List UInt8)}
    (h : IsSeries name columns) :
    columns.Nodup := by
  rcases h with ⟨-, rfl⟩ | ⟨-, rfl⟩ <;> decide

/-- The rows of a deal are rows of series. -/
theorem Deal.isSeries_of_mem_rows {deal : Deal} (htrader : 46 ∉ deal.trade.trader) {row : Row}
    (hrow : row ∈ deal.rows) {columns : List (List UInt8)} (h : IsSeries row.tsName columns) :
    row.columns.map Prod.fst = columns := by
  rcases List.mem_cons.mp hrow with rfl | hrow
  · rcases h with ⟨⟨origin, symbol, hname⟩, -⟩ | ⟨-, rfl⟩
    · have hmem : 46 ∈ deal.trade.row.tsName := hname ▸ mem_tsName origin symbol
      exact absurd hmem htrader
    · rfl
  · obtain ⟨q, -, rfl⟩ := List.mem_map.mp hrow
    rcases h with ⟨-, rfl⟩ | ⟨hname, -⟩
    · rfl
    · exact absurd (mem_tsName q.origin q.symbol) hname

/-- A front of the insertions of a row is a row of a front of its columns. -/
theorem Row.exists_take {row : Row} {front back : List PointInsertion}
    (h : row.insertions = front ++ back) :
    ∃ k, front = ({ row with columns := row.columns.take k } : Row).insertions := by
  refine ⟨front.length, ?_⟩
  rw [Row.insertions, List.map_take]
  exact ((congrArg (List.take front.length) h).trans List.take_left).symm

/-- What is inserted in any case, by rows: all of them, or some and a front of the next one. -/
theorem Inserts.exists_rows {deals : List Deal} {failure : Option Failure}
    {inserted : List PointInsertion} (h : Inserts accepts deals [] failure inserted) :
    failure = none ∧ inserted = (deals.flatMap Deal.rows).flatMap Row.insertions ∨
      ∃ rows row later k, deals.flatMap Deal.rows = rows ++ row :: later ∧
        inserted = rows.flatMap Row.insertions
          ++ ({ row with columns := row.columns.take k } : Row).insertions ∧ failure ≠ none := by
  have hrows (deals : List Deal) :
      deals.flatMap Deal.insertions = (deals.flatMap Deal.rows).flatMap Row.insertions := by
    rw [List.flatMap_assoc, funext Deal.insertions_eq]
  rcases h with ⟨hnone, rfl⟩ | ⟨complete, deal, later,
    f, rfl, hf, ⟨front, i, rest, hdeal, rfl, -, -⟩⟩
  · exact Or.inl ⟨hnone, hrows deals⟩
  · rw [Deal.insertions_eq] at hdeal
    obtain ⟨done, row, rest', front', back', hdone, hrow, rfl⟩ := exists_cut_of_flatMap hdeal
    obtain ⟨k, rfl⟩ := Row.exists_take hrow
    refine Or.inr
      ⟨complete.flatMap Deal.rows ++ done, row, rest' ++ later.flatMap Deal.rows, k, ?_, ?_,
      by rw [hf]; exact Option.some_ne_none f⟩
    · rw [List.flatMap_append, List.flatMap_cons, hdone]
      simp only [List.append_assoc, List.cons_append]
    · rw [List.nil_append, hrows, List.flatMap_append, List.append_assoc]

/-- The rows have the columns of their series. -/
def OfSeries (rows : List Row) : Prop :=
  ∀ row ∈ rows, ∀ columns, IsSeries row.tsName columns → row.columns.map Prod.fst = columns

/-- Rows, in each series. -/
theorem OfSeries.timesOf_eq {rows : List Row} (h : OfSeries rows) {name : List UInt8}
    {columns : List (List UInt8)} (hname : IsSeries name columns) {column : List UInt8}
    (hcolumn : column ∈ columns) :
    timesOf name column (rows.flatMap Row.insertions)
      = (rows.filter fun row => decide (row.tsName = name)).map (·.timestamp) :=
  timesOf_rows hname.nodup hcolumn fun row hrow heq => h row hrow columns (heq ▸ hname)

/-- Rows and a front of another one, in the series of that one and in others. -/
theorem OfSeries.torn {rows : List Row} {row : Row} (h : OfSeries (rows ++ [row])) (k : ℕ)
    {name : List UInt8} {columns : List (List UInt8)} (hname : IsSeries name columns) :
    let inserted := rows.flatMap Row.insertions
      ++ ({ row with columns := row.columns.take k } : Row).insertions
    Torn inserted name columns ∧ (name ≠ row.tsName → Even inserted name columns) := by
  obtain ⟨hrows, hlast⟩ := List.forall_mem_append.mp h
  have htimes (column) (hcolumn : column ∈ columns) := OfSeries.timesOf_eq hrows hname hcolumn
  by_cases hrow : row.tsName = name
  · have hcolumns : row.columns.map Prod.fst = columns :=
      hlast row (List.mem_singleton_self row) columns (hrow ▸ hname)
    have htake : (row.columns.take k).map Prod.fst = columns.take k := by
      rw [List.map_take, hcolumns]
    have hlate : (({ row with columns := row.columns.take k } : Row).columns.map Prod.fst).Nodup :=
      htake ▸ hname.nodup.sublist (List.take_sublist k columns)
    refine ⟨⟨(rows.filter fun row => decide (row.tsName = name)).map (·.timestamp), row.timestamp,
      columns.take k, List.take_prefix k columns, fun column hcolumn => ?_⟩,
      fun hne => absurd hrow.symm hne⟩
    rw [timesOf_append, htimes column hcolumn, timesOf_insertions hlate, htake]
    simp only [hrow, true_and]
  · have hne : ({ row with columns := row.columns.take k } : Row).tsName ≠ name := hrow
    have heven : Even (rows.flatMap Row.insertions
        ++ ({ row with columns := row.columns.take k } : Row).insertions) name columns := by
      refine ⟨(rows.filter fun row => decide (row.tsName = name)).map (·.timestamp),
        fun column hcolumn => ?_⟩
      rw [timesOf_append, htimes column hcolumn, timesOf_of_ne hne, List.append_nil]
    exact ⟨heven.torn, fun _ => heven⟩

/-- **The columns of every series go together**, in every run of traders without a period in their
names: in each series the points of all columns have the same instants, in the same order. A run
that fails leaves one series at most in which the last instant is missing in the later columns. -/
theorem columns_go_together (h : Listed products) (draws : ProductDraws products)
    {brokers : List (List UInt8 × Margins)} (hbrokers : brokers ≠ [])
    (accepts : List PointInsertion → PointInsertion → Bool) {turns : List (Turn products)}
    (htraders : ∀ t ∈ turns, 46 ∉ t.trader) :
    let r := tradeAll accepts ((Desk.make products draws brokers : Desk T M), []) turns
    (r.1 = none → ∀ name columns, IsSeries name columns → Even r.2.2 name columns) ∧
      ∃ torn, ∀ name columns, IsSeries name columns →
        Torn r.2.2 name columns ∧ (name ≠ torn → Even r.2.2 name columns) := by
  obtain ⟨deals, -, hdeals, hinserts⟩ := @Desk.Inv.tradeAll T M _ _ products accepts h _
    (Desk.inv_make (T := T) (M := M) draws hbrokers) [] turns
  have hseries : OfSeries (deals.flatMap Deal.rows) := by
    intro row hrow columns
    obtain ⟨deal, hdeal, hrow⟩ := List.mem_flatMap.mp hrow
    obtain ⟨t, ht, hIsDeal⟩ := exists_of_forall₂ hdeals hdeal
    obtain ⟨q, -, htrade⟩ := hIsDeal.trade
    exact deal.isSeries_of_mem_rows (htrade ▸ htraders t ht) hrow
  rcases hinserts.exists_rows with ⟨hnone, hall⟩ | ⟨rows, row, later, k, hcut, hfront, hsome⟩
  · have heven (name columns) (hname : IsSeries name columns) : Even _ name columns :=
      ⟨_, fun column hcolumn => (congrArg (timesOf name column) hall).trans
        (hseries.timesOf_eq hname hcolumn)⟩
    exact ⟨fun _ => heven, [], fun name columns hname => ⟨(heven name columns hname).torn,
      fun _ => heven name columns hname⟩⟩
  · have hrows : OfSeries (rows ++ [row]) := by
      intro row' hrow'
      refine hseries row' (hcut ▸ ?_)
      rw [List.append_cons]
      exact List.mem_append_left later hrow'
    refine ⟨fun hnone => absurd hnone hsome, row.tsName, fun name columns hname => ?_⟩
    rw [hfront]
    exact hrows.torn k hname

/-- With thirty points, the first quote of the second turn has a volume and no price. -/
theorem sample_columns_go_together :
    let r := tradeAll (acceptsPoints 30) ((Desk.make dowJones middleDraws evenBrokers :
      Desk (AssocList (List UInt8) QuoteGenerator) (AssocList (List UInt8) ℚ)), []) sampleTurns
    (r.1 = none → ∀ name columns, IsSeries name columns → Even r.2.2 name columns) ∧
      ∃ torn, ∀ name columns, IsSeries name columns →
        Torn r.2.2 name columns ∧ (name ≠ torn → Even r.2.2 name columns) :=
  @columns_go_together (AssocList (List UInt8) QuoteGenerator)
    (AssocList (List UInt8) ℚ) _ _ dowJones
    (Listed.of_perm (List.Perm.refl dowJones)) middleDraws evenBrokers (List.cons_ne_nil _ _)
    (acceptsPoints 30) sampleTurns
      (List.forall_mem_cons.mpr ⟨by decide, List.forall_mem_singleton.mpr (by decide)⟩)

end

end TradingDesk.Simulator
