import TradingDesk.Core.Dialogue
import TradingDesk.Simulator.Rows

/-!
# TradingDesk.Simulator.Setup

**From the first request to the last** (`main`, `create_products_ts` and `traders_ts_creator` of
`simulator.cpp`, `create_product_ts` of `quote.cpp`, `create_trader_ts` of `trade.cpp`), in the
normal mode. All series are removed and created again before anything is inserted. Some
failures end the program, and others are not looked at.

The database is a parameter: what it answers may depend on everything that it was asked. What
the columns of a series are is read off the requests that were successful.
-/

namespace TradingDesk.Simulator

open TradingDesk.Core
open TradingDesk.Core.Dialogue (ask)

/-! ### Requests -/

/-- What the database is asked. -/
inductive DbRequest
  | connect (url : List UInt8)
  | intPut (key : List UInt8)
  | attachTag (key tag : List UInt8)
  | remove (key : List UInt8)
  | tsCreate (tsName : List UInt8) (columns : List (List UInt8 × ColumnType))
  | insert (i : PointInsertion)

/-- All requests so far, and whether they were successful. -/
abbrev Session := List (DbRequest × Bool)

/-- The database. -/
abbrev Answers := Session → DbRequest → Bool

/-- `throw_on_failure`. -/
def throwOnFailure (success : Bool) (msg : String) : Dialogue DbRequest Bool Failure Unit :=
  if success then pure () else throw (.exception msg)

/-- `create_product_ts` and `create_trader_ts`, by their columns, their tag and the name of the
series. Whether the series was there and whether it could be tagged does not matter. -/
def createTs (answers : Answers) (columns : List (List UInt8 × ColumnType))
    (tag name : List UInt8) :
    Dialogue DbRequest Bool Failure Bool := do
  let _ ← ask answers (.remove name)
  if ← ask answers (.tsCreate name columns) then
    let _ ← ask answers (.attachTag name tag)
    ask answers (.attachTag tag (ascii "@tags"))
  else
    return false

/-- `create_product_ts`. -/
def createProductTs (answers : Answers) (origin product : List UInt8) :
    Dialogue DbRequest Bool Failure Bool :=
  createTs answers productColumns (ascii "@quotes") (tsName origin product)

/-- `create_trader_ts`. -/
def createTraderTs (answers : Answers) (trader : List UInt8) :
    Dialogue DbRequest Bool Failure Bool :=
  createTs answers traderColumns (ascii "@traders") trader

/-- The integer of a product or a broker, which may be there already. -/
def tagKey (answers : Answers) (tag : List UInt8) (msg : String) (key : List UInt8) :
    Dialogue DbRequest Bool Failure Unit := do
  let _ ← ask answers (.intPut key)
  throwOnFailure (← ask answers (.attachTag key tag)) msg
  throwOnFailure (← ask answers (.attachTag tag (ascii "@tags"))) "cannot tag tag"

/-- `create_products_ts`, for the names in the order of their tables. -/
def createProductsTs (answers : Answers) (brokers products : List (List UInt8)) :
    Dialogue DbRequest Bool Failure Unit := do
  forM products fun p => tagKey answers (ascii "@products") "cannot tag product" p
  forM brokers fun b => do
    tagKey answers (ascii "@brokers") "cannot tag broker" b
    forM products fun p => do
      throwOnFailure (← createProductTs answers b p) "cannot create product ts"

/-- `traders_ts_creator`, for all traders. -/
def createTradersTs (answers : Answers) : Dialogue DbRequest Bool Failure Unit :=
  forM (traders.map Prod.fst) fun t => do
    throwOnFailure (← createTraderTs answers t) "cannot create trader ts"

/-- `main` up to its loop. -/
def setup (answers : Answers) (url : List UInt8) (brokers products : List (List UInt8)) :
    Dialogue DbRequest Bool Failure Unit := do
  throwOnFailure (← ask answers (.connect url)) "connection error"
  createProductsTs answers brokers products
  createTradersTs answers

/-- Points that were inserted, as requests. -/
def madeInsertions (inserted : List PointInsertion) : Session :=
  inserted.map fun i => (.insert i, true)

/-- What is accepted of the points after this session. -/
def acceptsAfter (answers : Answers) (session : Session) (inserted : List PointInsertion)
    (i : PointInsertion) : Bool :=
  answers (session ++ madeInsertions inserted) (.insert i)

section

variable (T M : Type) [UnorderedMap T (List UInt8) QuoteGenerator] [UnorderedMap M (List UInt8) ℚ]

/-- `main` in the normal mode, up to the point that is not accepted, if any. -/
def main (answers : Answers) (url : List UInt8) (products : List Product)
    (draws : ProductDraws products) (brokers : List (List UInt8 × Margins))
    (turnDraws : ℕ → List UInt8 → TurnDraws products) (iterations : UInt64) :
    Option Failure × Session :=
  match (setup answers url (brokers.map Prod.fst) (products.map Product.name)).run [] with
  | .error failure session => (some failure, session)
  | .ok _ session =>
    let (failure, _, inserted) := normalMode (acceptsAfter answers session) turnDraws
      (Desk.make products draws brokers : Desk T M) iterations
    (failure, session ++ madeInsertions inserted)

end

/-! ### Columns that were created -/

/-- What one request has changed of the columns of the series. -/
def schemaStep (schema : List UInt8 → Option (List (List UInt8 × ColumnType))) :
    DbRequest × Bool → List UInt8 → Option (List (List UInt8 × ColumnType))
  | (.remove name, true) => Function.update schema name none
  | (.tsCreate name columns, true) => Function.update schema name (some columns)
  | _ => schema

/-- The columns of the series, after a session. -/
def schemaOf (session : Session) : List UInt8 → Option (List (List UInt8 × ColumnType)) :=
  session.foldl schemaStep fun _ => none

/-- A point is for a column that was created, and has its type. -/
def Provided (session : Session) (i : PointInsertion) : Prop :=
  ∃ columns, schemaOf session i.tsName = some columns ∧ (i.column, i.content.type) ∈ columns

instance (session : Session) (i : PointInsertion) : Decidable (Provided session i) :=
  decidable_of_iff (((schemaOf session i.tsName).any fun columns =>
    decide ((i.column, i.content.type) ∈ columns)) = true) (by simp [Provided, Option.any_eq_true])

/-- The same database, but it also refuses points that are not for a column that was created. -/
def Answers.checked (answers : Answers) : Answers
  | session, .insert i => answers session (.insert i) && decide (Provided session i)
  | session, r => answers session r

theorem schemaOf_append (session : Session) (entry : DbRequest × Bool) :
    schemaOf (session ++ [entry]) = schemaStep (schemaOf session) entry := by
  rw [schemaOf, List.foldl_append]
  rfl

/-- Insertions create no series. -/
theorem schemaOf_madeInsertions (session : Session) (inserted : List PointInsertion) :
    schemaOf (session ++ madeInsertions inserted) = schemaOf session := by
  induction inserted using List.reverseRecOn with
  | nil => rw [madeInsertions, List.map_nil, List.append_nil]
  | append_singleton inserted i ih =>
      rw [madeInsertions, List.map_append, ← List.append_assoc]
      exact (schemaOf_append _ _).trans ih

/-! ### One series -/

section

variable {answers : Answers} {log log' : Session}

theorem throwOnFailure_eq_ok {success : Bool} {msg : String}
    (h : (throwOnFailure success msg).run log = .ok () log') : success = true ∧ log' = log := by
  cases success with
  | false => cases h
  | true =>
      cases h
      exact ⟨rfl, rfl⟩

/-- A request that has to be successful. -/
theorem ask_throwOnFailure_eq_ok {r : DbRequest} {msg : String}
    (h : (do throwOnFailure (← ask answers r) msg).run log = .ok () log') :
    log' = log ++ [(r, true)] := by
  obtain ⟨success, middle, hask, hthrow⟩ := Dialogue.run_bind_eq_ok h
  obtain ⟨rfl, rfl⟩ := throwOnFailure_eq_ok hthrow
  exact (Dialogue.run_ask_eq_ok hask).2

/-- Tags and integers change no series. -/
theorem schemaOf_tagKey {tag : List UInt8} {msg : String} {key : List UInt8}
    (h : (tagKey answers tag msg key).run log = .ok () log') : schemaOf log' = schemaOf log := by
  obtain ⟨put, log₁, hput, hrest⟩ := Dialogue.run_bind_eq_ok h
  obtain ⟨attached, log₂, hattach, hrest⟩ := Dialogue.run_bind_eq_ok hrest
  obtain ⟨⟨⟩, log₃, hthrow, hlast⟩ := Dialogue.run_bind_eq_ok hrest
  obtain ⟨-, rfl⟩ := throwOnFailure_eq_ok hthrow
  rw [ask_throwOnFailure_eq_ok hlast, (Dialogue.run_ask_eq_ok hattach).2,
    (Dialogue.run_ask_eq_ok hput).2, schemaOf_append, schemaOf_append, schemaOf_append]
  rfl

/-- **A series was created**, and no other one has changed. -/
theorem schemaOf_createTs {columns : List (List UInt8 × ColumnType)}
    {tag name : List UInt8} {msg : String}
    (h : (do throwOnFailure (← createTs answers columns tag name) msg).run log = .ok () log') :
    schemaOf log' = Function.update (schemaOf log) name (some columns) := by
  obtain ⟨success, middle, hcreate, hthrow⟩ := Dialogue.run_bind_eq_ok h
  obtain ⟨rfl, rfl⟩ := throwOnFailure_eq_ok hthrow
  obtain ⟨removed, log₁, hremove, hrest⟩ := Dialogue.run_bind_eq_ok hcreate
  obtain ⟨created, log₂, hcreated, hrest⟩ := Dialogue.run_bind_eq_ok hrest
  cases created with
  | false => cases hrest
  | true =>
      obtain ⟨tagged, log₃, htag, hlast⟩ := Dialogue.run_bind_eq_ok hrest
      rw [(Dialogue.run_ask_eq_ok hlast).2, (Dialogue.run_ask_eq_ok htag).2,
        (Dialogue.run_ask_eq_ok hcreated).2, (Dialogue.run_ask_eq_ok hremove).2]
      simp only [schemaOf_append, schemaStep]
      cases removed with
      | false => rfl
      | true => exact Function.update_idem _ _ _

/-- The columns that series of these names are to have. -/
def Creates (columns : List (List UInt8 × ColumnType))
    (names : List (List UInt8)) (log : Session) : Prop :=
  ∀ name ∈ names, schemaOf log name = some columns

/-- One more series, under any name. -/
theorem Creates.append {columns : List (List UInt8 × ColumnType)} {names : List (List UInt8)}
    {name : List UInt8} (h : Creates columns names log)
    (hlog : schemaOf log' = Function.update (schemaOf log) name (some columns)) :
    Creates columns (names ++ [name]) log' := by
  intro name' hname'
  rw [hlog]
  by_cases heq : name' = name
  · rw [heq, Function.update_self]
  · rw [Function.update_of_ne heq]
    rcases List.mem_append.mp hname' with hmem | hmem
    · exact h name' hmem
    · exact absurd (List.mem_singleton.mp hmem) heq

/-- A series that is called otherwise. -/
theorem Creates.of_notMem {columns columns' : List (List UInt8 × ColumnType)}
    {names : List (List UInt8)}
    {name : List UInt8} (h : Creates columns names log) (hname : name ∉ names)
    (hlog : schemaOf log' = Function.update (schemaOf log) name (some columns')) :
    Creates columns names log' := by
  intro name' hname'
  have hne : name' ≠ name := fun heq => hname (heq ▸ hname')
  rw [hlog, Function.update_of_ne hne]
  exact h name' hname'

/-- The series of these brokers and products. -/
def productSeries (brokers products : List (List UInt8)) : List (List UInt8) :=
  brokers.flatMap fun b => products.map (tsName b)

/-- All series of brokers and products. -/
theorem createProductsTs_creates {brokers products : List (List UInt8)}
    (h : (createProductsTs answers brokers products).run log = .ok () log') :
    Creates productColumns (productSeries brokers products) log' := by
  obtain ⟨⟨⟩, log₁, -, hbrokers⟩ := Dialogue.run_bind_eq_ok h
  refine @Dialogue.run_forM_eq_ok
    _ _ _ _ _ (fun done log => Creates productColumns (productSeries done products) log)
    ?_ brokers [] _ _ (fun name hname => by cases hname) hbrokers
  intro done b log log' hdone hround
  obtain ⟨⟨⟩, log₂, htag, hproducts⟩ := Dialogue.run_bind_eq_ok hround
  have hseries := @Dialogue.run_forM_eq_ok _ _ _ _ _
    (fun ps log => Creates productColumns (productSeries done products ++ ps.map (tsName b)) log)
    (fun ps p log log' hps hround => by
      rw [List.map_append, ← List.append_assoc]
      exact hps.append (schemaOf_createTs hround))
    products [] _ _ (fun name hname => by
      rw [schemaOf_tagKey htag]
      exact hdone name (by simpa using hname)) hproducts
  rwa [productSeries, List.flatMap_append, List.flatMap_singleton]

/-- The series of the traders, with those of the brokers and products left as they are. -/
theorem createTradersTs_creates {columns : List (List UInt8 × ColumnType)}
    {names : List (List UInt8)}
    (hnames : ∀ t ∈ traders.map Prod.fst, t ∉ names) (hlog : Creates columns names log)
    (h : (createTradersTs answers).run log = .ok () log') :
    Creates columns names log' ∧ Creates traderColumns (traders.map Prod.fst) log' := by
  have hrun := @Dialogue.run_forM_eq_ok _ _ _ _ _
    (fun done log => (∀ t ∈ done, t ∈ traders.map Prod.fst) →
      Creates columns names log ∧ Creates traderColumns done log)
    (fun done t log log' hdone hround hmem => by
      obtain ⟨hnamesMem, ht⟩ := List.forall_mem_append.mp hmem
      obtain ⟨hproducts, htraders⟩ := hdone hnamesMem
      have hcreated := schemaOf_createTs hround
      exact ⟨hproducts.of_notMem (hnames t (ht t (List.mem_singleton_self t))) hcreated,
        htraders.append hcreated⟩)
    (traders.map Prod.fst) [] _ _ (fun _ => ⟨hlog, fun name hname => by cases hname⟩) h
  exact hrun fun t ht => ht

/-- **Before the loop**, all series have their columns. -/
theorem setup_creates {url : List UInt8} {brokers products : List (List UInt8)}
    (h : (setup answers url brokers products).run log = .ok () log') :
    Creates productColumns (productSeries brokers products) log' ∧
      Creates traderColumns (traders.map Prod.fst) log' := by
  obtain ⟨connected, log₁, -, hrest⟩ := Dialogue.run_bind_eq_ok h
  obtain ⟨⟨⟩, log₂, -, hrest'⟩ := Dialogue.run_bind_eq_ok hrest
  obtain ⟨⟨⟩, log₃, hproducts, htraders⟩ := Dialogue.run_bind_eq_ok hrest'
  refine createTradersTs_creates (fun t ht hmem => ?_) (createProductsTs_creates hproducts) htraders
  have hperiod : ∀ t ∈ traders.map Prod.fst, 46 ∉ t := by decide
  obtain ⟨b, -, hb⟩ := List.mem_flatMap.mp hmem
  obtain ⟨p, -, rfl⟩ := List.mem_map.mp hb
  exact hperiod _ ht (mem_tsName b p)

end

/-! ### Points for columns that were created -/

section

variable {T M : Type} [UnorderedMap T (List UInt8) QuoteGenerator] [UnorderedMap M (List UInt8) ℚ]
variable {products : List Product} {answers : Answers}

/-- The points of a row, when its series has the columns of the row. -/
theorem Row.provided {session : Session} {row : Row}
    (h : schemaOf session row.tsName = some row.signature) {i : PointInsertion}
    (hi : i ∈ row.insertions) : Provided session i := by
  obtain ⟨c, hc, rfl⟩ := List.mem_map.mp hi
  exact ⟨row.signature, h, List.mem_map_of_mem hc⟩

/-- The points of a fair deal. -/
theorem IsDeal.provided {t : Turn products} {brokers : List (List UInt8)} {deal : Deal}
    (h : IsDeal t brokers deal) (htrader : t.trader ∈ traders.map Prod.fst) {session : Session}
    (hproducts : Creates productColumns (productSeries brokers (products.map Product.name)) session)
    (htraders : Creates traderColumns (traders.map Prod.fst) session) {i : PointInsertion}
    (hi : i ∈ deal.insertions) : Provided session i := by
  rw [Deal.insertions_eq] at hi
  obtain ⟨row, hrow, hi⟩ := List.mem_flatMap.mp hi
  refine Row.provided ?_ hi
  rcases List.mem_cons.mp hrow with rfl | hrow
  · obtain ⟨q, -, htrade⟩ := h.trade
    rw [Trade.signature_row]
    exact htraders _ (htrade ▸ htrader)
  · obtain ⟨q, hq, rfl⟩ := List.mem_map.mp hrow
    obtain ⟨p, hp, hquotes⟩ := h.quotes
    have horigin : q.origin ∈ brokers := h.origins ▸ List.mem_map_of_mem hq
    have hsymbol : q.symbol ∈ products.map Product.name := (hquotes q hq).1 ▸ List.mem_map_of_mem hp
    rw [Quote.signature_row]
    exact hproducts _ (List.mem_flatMap.mpr ⟨_, horigin, List.mem_map_of_mem hsymbol⟩)

/-- The traders of the turns. -/
theorem trader_of_mem_turnsOf {turnDraws : ℕ → List UInt8 → TurnDraws products} {rounds : ℕ}
    {t : Turn products} (h : t ∈ turnsOf turnDraws rounds) : t.trader ∈ traders.map Prod.fst := by
  obtain ⟨i, -, ht⟩ := List.mem_flatMap.mp h
  obtain ⟨trader, htrader, rfl⟩ := List.mem_map.mp ht
  exact List.mem_map_of_mem htrader

/-- Which points are accepted matters only for those of the deals. -/
theorem Desk.Inv.tradeAll_congr (h : Listed products) {desk : Desk T M}
    (hInv : desk.Inv (initialPrice products))
    {accepts accepts' : List PointInsertion → PointInsertion → Bool}
    {turns : List (Turn products)}
    (hsame : ∀ t ∈ turns, ∀ deal, IsDeal t (desk.brokers.map (·.name)) deal →
      ∀ i ∈ deal.insertions, ∀ made, accepts made i = accepts' made i)
        (made : List PointInsertion) :
    Simulator.tradeAll accepts (desk, made) turns
      = Simulator.tradeAll accepts' (desk, made) turns := by
  induction turns generalizing desk made with
  | nil => rfl
  | cons t turns ih =>
      obtain ⟨deal, p, desk', hstep, hdealt, hInv'⟩ := hInv.step h.names h.prices t
      have hdeal := hsame t List.mem_cons_self deal hdealt.isDeal
      have htrading : trading accepts (desk, made) t = trading accepts' (desk, made) t := by
        simp only [trading, Desk.call_of_step hstep, insertQuotes_eq]
        rw [attempt_congr fun made i hi => hdeal i (List.mem_append_left _ hi) made]
        simp only [attempt_congr fun made i hi => hdeal i (List.mem_append_right _ hi) made]
      have hrest : ∀ t ∈ turns, ∀ deal, IsDeal t (desk'.brokers.map (·.name)) deal →
          ∀ i ∈ deal.insertions, ∀ made, accepts made i = accepts' made i := by
        rw [hdealt.names.2]
        exact fun t ht => hsame t (List.mem_cons_of_mem _ ht)
      have htrading_step := @trading_eq_attempt _ _ _ _ _ accepts' (desk, made) _ _ _ hstep
      obtain ⟨failure, heq, -⟩ := htrading_step
      rw [Simulator.tradeAll, Simulator.tradeAll, htrading, heq]
      cases failure with
      | none => exact ih hInv' hrest _
      | some f => rfl

/-- **Every point is for a column that was created in the same run**, and has its type: a database
that also refuses all others answers no run otherwise. -/
theorem points_are_provided (h : Listed products) (answers : Answers) (url : List UInt8)
    (draws : ProductDraws products) {brokers : List (List UInt8 × Margins)}
    (hbrokers : brokers ≠ []) (turnDraws : ℕ → List UInt8 → TurnDraws products)
    (iterations : UInt64) :
    main T M answers.checked url products draws brokers turnDraws iterations
      = main T M answers url products draws brokers turnDraws iterations := by
  have hsetup : setup answers.checked url (brokers.map Prod.fst) (products.map Product.name)
    = setup answers url (brokers.map Prod.fst) (products.map Product.name) := rfl
  rw [main, main, hsetup]
  cases hrun : (setup answers url (brokers.map Prod.fst) (products.map Product.name)).run [] with
  | error failure session => rfl
  | ok _ session =>
      obtain ⟨hproducts, htraders⟩ := setup_creates hrun
      have hsame : ∀ t ∈ turnsOf turnDraws (min iterations.toNat (2 ^ 31)), ∀ deal,
          IsDeal t ((Desk.make products draws brokers : Desk T M).brokers.map (·.name)) deal →
          ∀ i ∈ deal.insertions, ∀ made,
            acceptsAfter answers.checked session made i = acceptsAfter answers session made i := by
        intro t ht deal hdeal i hi made
        rw [Desk.names_make] at hdeal
        have hi' : Provided (session ++ madeInsertions made) i := by
          rw [Provided, schemaOf_madeInsertions]
          exact hdeal.provided (trader_of_mem_turnsOf ht) hproducts htraders hi
        simp [acceptsAfter, Answers.checked, hi']
      simp only [normalMode, Desk.Inv.tradeAll_congr h (Desk.inv_make draws hbrokers) hsame]

/-- A database that refuses everything from some request on. -/
def answersUpTo (n : ℕ) : Answers := fun session _ => decide (session.length < n)

/-- The products and brokers of `main`, with a database that refuses a point of the first deal. -/
theorem sample_points_are_provided :
    main (AssocList (List UInt8) QuoteGenerator) (AssocList (List UInt8) ℚ)
      (answersUpTo 610).checked
        (ascii "qdb://127.0.0.1:2836") dowJones middleDraws evenBrokers
        (fun _ trader => (sampleTurn trader .greedy).toTurnDraws) 1000
      = main (AssocList (List UInt8) QuoteGenerator) (AssocList (List UInt8) ℚ) (answersUpTo 610)
        (ascii "qdb://127.0.0.1:2836") dowJones middleDraws evenBrokers
        (fun _ trader => (sampleTurn trader .greedy).toTurnDraws) 1000 :=
  points_are_provided (Listed.of_perm (List.Perm.refl dowJones)) (answersUpTo 610) _ middleDraws
    (List.cons_ne_nil _ _) _ _

end

end TradingDesk.Simulator
