import TradingDesk.Core.Attempts
import TradingDesk.Simulator.FastTrading
import TradingDesk.Simulator.Trader

/-!
# TradingDesk.Simulator.Trading

**The normal mode** (`trade.cpp`, `quote.cpp` and `trading` of `simulator.cpp`): in every turn the
trade is inserted, and then the quotes of all brokers. The first insertion that fails ends the
program, and leaves what was inserted before it.

What the database holds is always a front of the insertions that the deals of the run call for.
-/

namespace TradingDesk.Simulator

open TradingDesk.Core
open TradingDesk.Utils (Timespec)

/-! ### Series -/

/-- `qdb_ts_column_blob` and `qdb_ts_column_double`. -/
inductive ColumnType
  | blob
  | double
  deriving Repr, DecidableEq

/-- A point, as it is inserted. -/
inductive PointContent
  | blob (content : List UInt8)
  | double (value : ℚ)

def PointContent.type : PointContent → ColumnType
  | .blob _ => .blob
  | .double _ => .double

/-- An insertion of one point. -/
structure PointInsertion where
  tsName : List UInt8
  column : List UInt8
  timestamp : Timespec
  content : PointContent

/-- The columns of `create_trader_ts`. -/
def traderColumns : List (List UInt8 × ColumnType) :=
  [(ascii "product", .blob), (ascii "counterparty", .blob), (ascii "volume", .double),
    (ascii "value", .double)]

/-- The columns of `create_product_ts`. -/
def productColumns : List (List UInt8 × ColumnType) :=
  [(ascii "volume", .double), (ascii "open", .double),
    (ascii "high", .double), (ascii "low", .double),
    (ascii "close", .double)]

/-- `o + "." + p`. -/
def tsName (origin symbol : List UInt8) : List UInt8 := origin ++ ascii "." ++ symbol

/-- The four insertions of `insert_into_qdb`, for a trade. -/
def Trade.insertions (t : Trade) : List PointInsertion :=
  [⟨t.trader, ascii "product", t.timestamp, .blob t.product⟩,
    ⟨t.trader, ascii "counterparty", t.timestamp, .blob t.counterparty⟩,
    ⟨t.trader, ascii "volume", t.timestamp, .double t.volume⟩,
    ⟨t.trader, ascii "value", t.timestamp, .double t.value⟩]

/-- The five insertions of `insert_into_qdb`, for a quote. -/
def Quote.insertions (q : Quote) : List PointInsertion :=
  let name := tsName q.origin q.symbol
  [⟨name, ascii "volume", q.timestamp, .double q.columns.volume⟩,
    ⟨name, ascii "open", q.timestamp, .double q.columns.open⟩,
    ⟨name, ascii "high", q.timestamp, .double q.columns.high⟩,
    ⟨name, ascii "low", q.timestamp, .double q.columns.low⟩,
    ⟨name, ascii "close", q.timestamp, .double q.columns.close⟩]

/-- What a deal calls for: first the trade. -/
def Deal.insertions (deal : Deal) : List PointInsertion :=
  deal.trade.insertions ++ deal.quotes.flatMap Quote.insertions

/-! ### The loop -/

section

variable {T M : Type} [UnorderedMap T (List UInt8) QuoteGenerator] [UnorderedMap M (List UInt8) ℚ]
variable {products : List Product}

/-- The loop over the quotes, with the insertion that was not accepted, if any. -/
def insertQuotes (accepts : List PointInsertion → PointInsertion → Bool) :
    List PointInsertion → List Quote → Option PointInsertion × List PointInsertion
  | inserted, [] => (none, inserted)
  | inserted, q :: quotes =>
    match attempt accepts inserted q.insertions with
    | (none, inserted) => insertQuotes accepts inserted quotes
    | (some i, inserted) => (some i, inserted)

/-- `trading::operator()`, on the brokers and what is in the database. -/
def trading (accepts : List PointInsertion → PointInsertion → Bool)
    (s : Desk T M × List PointInsertion) (t : Turn products) :
    Option Failure × Desk T M × List PointInsertion :=
  match s.1.call t with
  | .error failure => (some failure, s)
  | .ok (deal, desk) =>
    match attempt accepts s.2 deal.trade.insertions with
    | (some _, inserted) => (some (.exception "cannot insert trade"), desk, inserted)
    | (none, inserted) =>
      match insertQuotes accepts inserted deal.quotes with
      | (some _, inserted) => (some (.exception "cannot insert quote"), desk, inserted)
      | (none, inserted) => (none, desk, inserted)

/-- One turn after the other, up to the first failure. -/
def tradeAll (accepts : List PointInsertion → PointInsertion → Bool) :
    Desk T M × List PointInsertion → List (Turn products) →
    Option Failure × Desk T M × List PointInsertion
  | s, [] => (none, s)
  | s, t :: turns =>
    match trading accepts s t with
    | (none, s) => tradeAll accepts s turns
    | (some failure, s) => (some failure, s)

/-- The traders of `main`. -/
def traders : List (List UInt8 × Behavior) :=
  [(ascii "Bob", .greedy), (ascii "Alice", .greedy),
    (ascii "Carry", .greedy), (ascii "Cobra", .cheater)]

/-- The turns of so many rounds. -/
def turnsOf (draws : ℕ → List UInt8 → TurnDraws products) (rounds : ℕ) : List (Turn products) :=
  (List.range rounds).flatMap fun i => traders.map fun trader =>
    ⟨draws i trader.1, trader.1, trader.2⟩

/-- The loop of `main`. Its counter is an `int`, so after 2^31 rounds its increment is undefined. -/
def normalMode (accepts : List PointInsertion → PointInsertion → Bool)
    (draws : ℕ → List UInt8 → TurnDraws products) (desk : Desk T M) (iterations : UInt64) :
    Option Failure × Desk T M × List PointInsertion :=
  match tradeAll accepts (desk, []) (turnsOf draws (min iterations.toNat (2 ^ 31))) with
  | (some failure, s) => (some failure, s)
  | (none, s) => if iterations.toNat < 2 ^ 31 then (none, s) else (some .undefined, s)

/-! ### What is inserted -/

variable {accepts : List PointInsertion → PointInsertion → Bool}

theorem insertQuotes_eq (inserted : List PointInsertion) (quotes : List Quote) :
    insertQuotes accepts inserted quotes
      = attempt accepts inserted (quotes.flatMap Quote.insertions) := by
  induction quotes generalizing inserted with
  | nil => rfl
  | cons q quotes ih =>
      rw [insertQuotes, List.flatMap_cons, attempt_append]
      rcases attempt accepts inserted q.insertions with ⟨_ | i, inserted⟩
      · exact ih inserted
      · rfl

/-- What the failure of an insertion is reported as. -/
def Reported (deal : Deal) (i : PointInsertion) (failure : Failure) : Prop :=
  i ∈ deal.trade.insertions ∧ failure = .exception "cannot insert trade" ∨
    (∃ q ∈ deal.quotes, i ∈ q.insertions) ∧ failure = .exception "cannot insert quote"

/-- A front of what a deal calls for was inserted, up to an insertion that was not accepted. -/
structure Breaks (accepts : List PointInsertion → PointInsertion → Bool) (deal : Deal)
    (made : List PointInsertion) (failure : Failure) (inserted : List PointInsertion) : Prop where
  exists_front : ∃ front i rest, deal.insertions = front ++ i :: rest ∧ inserted = made ++ front ∧
    accepts inserted i = false ∧ Reported deal i failure

/-- All that the deals call for was inserted; or one of them breaks, and those before it are
complete. -/
def Inserts (accepts : List PointInsertion → PointInsertion → Bool) (deals : List Deal)
    (made : List PointInsertion) (failure : Option Failure)
    (inserted : List PointInsertion) : Prop :=
  failure = none ∧ inserted = made ++ deals.flatMap Deal.insertions ∨
    ∃ complete deal later f, deals = complete ++ deal :: later ∧ failure = some f ∧
      Breaks accepts deal (made ++ complete.flatMap Deal.insertions) f inserted

theorem Desk.call_of_step {desk desk' : Desk T M} {t : Turn products} {deal : Deal}
    (h : desk.step t = (.ok deal, desk')) : desk.call t = .ok (deal, desk') := by
  rw [Desk.step] at h
  cases hcall : desk.call t with
  | error failure => simp [hcall] at h
  | ok r =>
      rw [hcall] at h
      obtain ⟨hdeal, hdesk⟩ := Prod.mk.inj h
      rw [← Except.ok.inj hdeal, ← hdesk]

/-- One turn with its deal. -/
theorem trading_inserts {s : Desk T M × List PointInsertion} {t : Turn products} {deal : Deal}
    {desk : Desk T M} (h : s.1.step t = (.ok deal, desk)) :
    trading accepts s t = (none, desk, s.2 ++ deal.insertions) ∨
      ∃ f inserted, trading accepts s t = (some f, desk, inserted) ∧
        Breaks accepts deal s.2 f inserted := by
  simp only [trading, Desk.call_of_step h, Deal.insertions]
  rcases @attempt_cases _ accepts s.2 deal.trade.insertions with
    hall | ⟨front, i, rest, htrade, hstop, hrejects⟩
  · rw [hall]
    dsimp only
    rw [insertQuotes_eq]
    rcases @attempt_cases _ accepts (s.2 ++ deal.trade.insertions)
      (deal.quotes.flatMap Quote.insertions) with hall | ⟨front, i, rest, hquotes, hstop, hrejects⟩
    · rw [hall, List.append_assoc]
      exact Or.inl rfl
    · rw [hstop]
      have hi : i ∈ deal.quotes.flatMap Quote.insertions := by simp [hquotes]
      refine Or.inr ⟨_, _, rfl, deal.trade.insertions ++ front, i, rest, ?_, ?_, hrejects,
        Or.inr ⟨List.mem_flatMap.mp hi, rfl⟩⟩
      · rw [Deal.insertions, hquotes, List.append_assoc]
      · rw [List.append_assoc]
  · rw [hstop]
    refine Or.inr
      ⟨_, _, rfl, front, i, rest ++ deal.quotes.flatMap Quote.insertions, ?_, rfl, hrejects,
      Or.inl ⟨by simp [htrade], rfl⟩⟩
    rw [Deal.insertions, htrade, List.append_assoc, List.cons_append]

/-- A deal, and then others. -/
theorem Inserts.cons {deal : Deal} {deals : List Deal} {made inserted : List PointInsertion}
    {failure : Option Failure}
    (h : Inserts accepts deals (made ++ deal.insertions) failure inserted) :
    Inserts accepts (deal :: deals) made failure inserted := by
  rcases h with ⟨rfl, rfl⟩ | ⟨complete, deal', later, f, rfl, rfl, hbreaks⟩
  · exact Or.inl ⟨rfl, by rw [List.flatMap_cons, List.append_assoc]⟩
  · refine Or.inr ⟨deal :: complete, deal', later, f, rfl, rfl, ?_⟩
    rwa [List.flatMap_cons, ← List.append_assoc]

/-- **Run lemma.** -/
theorem Desk.Inv.tradeAll (h : Listed products) {desk : Desk T M}
    (hInv : desk.Inv (initialPrice products)) (made : List PointInsertion)
    (turns : List (Turn products)) :
    ∃ deals : List Deal, outputs Desk.step desk turns = deals.map .ok ∧
      List.Forall₂ (fun t deal => IsDeal t (desk.brokers.map (·.name)) deal) turns deals ∧
      Inserts accepts deals made (tradeAll accepts (desk, made) turns).1
        (tradeAll accepts (desk, made) turns).2.2 := by
  induction turns generalizing desk made with
  | nil => exact ⟨[], rfl, .nil, Or.inl ⟨rfl, by simp [Simulator.tradeAll]⟩⟩
  | cons t turns ih =>
      obtain ⟨deal, p, desk', hstep, hdealt, hInv'⟩ := hInv.step h.names h.prices t
      obtain ⟨deals, houtputs, hdeals, hrest⟩ := ih hInv' (made ++ deal.insertions)
      rw [hdealt.names.2] at hdeals
      refine ⟨deal :: deals, by rw [outputs_cons, hstep, houtputs]; rfl,
        .cons hdealt.isDeal hdeals, ?_⟩
      rw [Simulator.tradeAll]
      rcases @trading_inserts _ _ _ _ _ accepts (desk, made) _ _ _ hstep with
        htrading | ⟨f, inserted, htrading, hbreaks⟩
      · rw [htrading]
        exact hrest.cons
      · rw [htrading]
        exact Or.inr ⟨[], deal, deals, f, rfl, rfl, by simpa using hbreaks⟩

/-- The brokers of a new desk. -/
theorem Desk.names_make (draws : ProductDraws products)
    (brokers : List (List UInt8 × Margins)) :
    (Desk.make products draws brokers : Desk T M).brokers.map (·.name) = brokers.map Prod.fst := by
  simp [Desk.make, BrokerWithMargin.make, Function.comp_def]

/-- **The database holds the deals of the run**, in their order, each with its trade first. If the
run fails, it is at an insertion that was not accepted: the deals before it are complete, and of one
deal there is a front. -/
theorem database_holds_deals (h : Listed products) (draws : ProductDraws products)
    {brokers : List (List UInt8 × Margins)} (hbrokers : brokers ≠ [])
    (accepts : List PointInsertion → PointInsertion → Bool) (turns : List (Turn products)) :
    ∃ deals : List Deal,
      outputs Desk.step (Desk.make products draws brokers : Desk T M) turns = deals.map .ok ∧
      List.Forall₂ (fun t deal => IsDeal t (brokers.map Prod.fst) deal) turns deals ∧
      Inserts accepts deals []
        (tradeAll accepts ((Desk.make products draws brokers : Desk T M), []) turns).1
        (tradeAll accepts ((Desk.make products draws brokers : Desk T M), []) turns).2.2 := by
  have hrun := @Desk.Inv.tradeAll T M _ _ products accepts h _
    (Desk.inv_make (T := T) (M := M) draws hbrokers) [] turns
  rwa [Desk.names_make] at hrun

/-- A turn of a greedy trader, and one of a cheater. -/
def sampleTurns : List (Turn dowJones) :=
  [sampleTurn (ascii "Bob") .greedy, sampleTurn (ascii "Cobra") .cheater]

/-- A database that accepts so many points. -/
def acceptsPoints (n : ℕ) (inserted : List PointInsertion) (_ : PointInsertion) : Bool :=
  decide (inserted.length < n)

/-- With thirty points, the run ends in the second deal: the first one has 24. -/
theorem database_holds_sample_deals :
    ∃ deals : List Deal,
      outputs Desk.step (Desk.make dowJones middleDraws evenBrokers :
          Desk (AssocList (List UInt8) QuoteGenerator) (AssocList (List UInt8) ℚ)) sampleTurns
        = deals.map .ok ∧
      List.Forall₂ (fun t deal => IsDeal t (evenBrokers.map Prod.fst) deal) sampleTurns deals ∧
      Inserts (acceptsPoints 30) deals []
        (tradeAll (acceptsPoints 30) ((Desk.make dowJones middleDraws evenBrokers :
          Desk (AssocList (List UInt8) QuoteGenerator) (AssocList (List UInt8) ℚ)), [])
            sampleTurns).1
        (tradeAll (acceptsPoints 30) ((Desk.make dowJones middleDraws evenBrokers :
          Desk (AssocList (List UInt8) QuoteGenerator) (AssocList (List UInt8) ℚ)), [])
            sampleTurns).2.2 :=
  @database_holds_deals (AssocList (List UInt8) QuoteGenerator)
    (AssocList (List UInt8) ℚ) _ _ dowJones
    (Listed.of_perm (List.Perm.refl dowJones)) middleDraws evenBrokers (List.cons_ne_nil _ _)
    (acceptsPoints 30) sampleTurns

/-! ### When a run ends well -/

/-- One turn fails exactly if one of its insertions is refused. -/
theorem trading_eq_attempt {s : Desk T M × List PointInsertion} {t : Turn products} {deal : Deal}
    {desk : Desk T M} (h : s.1.step t = (.ok deal, desk)) :
    ∃ failure, trading accepts s t = (failure, desk, (attempt accepts s.2 deal.insertions).2) ∧
      (failure = none ↔ (attempt accepts s.2 deal.insertions).1 = none) := by
  simp only [trading, Desk.call_of_step h, Deal.insertions, attempt_append, insertQuotes_eq]
  rcases attempt accepts s.2 deal.trade.insertions with ⟨_ | i, inserted⟩
  · dsimp only
    rcases attempt accepts inserted (deal.quotes.flatMap Quote.insertions) with ⟨_ | i, inserted⟩
    · exact ⟨none, rfl, iff_of_true rfl rfl⟩
    · exact ⟨_, rfl, iff_of_false (Option.some_ne_none _) (Option.some_ne_none _)⟩
  · exact ⟨_, rfl, iff_of_false (Option.some_ne_none _) (Option.some_ne_none _)⟩

end

end TradingDesk.Simulator
