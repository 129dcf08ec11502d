import Mathlib.Data.List.Forall2
import Mathlib.Data.List.MinMax
import Mathlib.Tactic.Linarith
import TradingDesk.Core.Decimal
import TradingDesk.Simulator.Broker
import TradingDesk.Simulator.Series

/-!
# TradingDesk.Simulator.Trader

**Traders** (`trader.hpp`, `trade.hpp`). A trader asks every broker for a quote of one product
and takes one of the quotes: a greedy trader the first of the lowest ones, a cheater the one
of the first broker most of the time.

The brokers are listed in the order in which their table is iterated, which does not change as
long as none is added. What the distributions yield in one turn of a trader is part of the
turn, within their bounds.
-/

namespace TradingDesk.Simulator

open TradingDesk.Core
open TradingDesk.Core.UnorderedMap (find? assign emplace empty emplaceAll)
open TradingDesk.Utils (Timespec)

/-! ### Trades -/

/-- `trade`. -/
structure Trade where
  timestamp : Timespec
  trader : List UInt8
  counterparty : List UInt8
  product : List UInt8
  volume : ℚ
  value : ℚ

/-- The constructor of `trade`, with the clock's reading. -/
def Trade.ofQuote (now : Timespec) (t : List UInt8) (q : Quote) : Trade where
  timestamp := now
  trader := t
  counterparty := q.origin
  product := q.symbol
  volume := q.columns.volume
  value := q.columns.close

/-- What a trader returns. -/
structure Deal where
  trade : Trade
  quotes : List Quote

/-! ### Behaviors -/

inductive Behavior
  | greedy
  | cheater
  deriving Repr, DecidableEq

/-- `choose_product`. The index is asserted to be within the table. -/
def chooseProduct (products : List Product) (idx : ℕ) : Except Failure (List UInt8) :=
  match products[idx]? with
  | none => .error .undefined
  | some p => .ok p.name

/-- `greedy::choose_quote`: `std::min_element` answers with the first of the lowest elements. That
of an empty vector cannot be dereferenced. -/
def greedyQuote (quotes : List Quote) : Except Failure Quote :=
  (quotes.argmin fun q => q.columns.close).elim (.error .undefined) .ok

/-- `choose_quote`. -/
def Behavior.chooseQuote (percent : ℕ) (quotes : List Quote) : Behavior → Except Failure Quote
  | .greedy => greedyQuote quotes
  | .cheater =>
    if percent < 80 then quotes.head?.elim (.error .undefined) .ok else greedyQuote quotes

/-! ### Turns -/

/-- What the distributions yield in a turn of a trader, and what the clock shows at each of the
quotes and at the trade. -/
structure TurnDraws (products : List Product) where
  idx : ℕ
  idx_within : idx < products.length
  percent : ℕ
  percent_within : percent ≤ 100
  volume : UInt32
  volume_within : 100 ≤ volume.toNat ∧ volume.toNat ≤ 1000
  quoteTimes : ℕ → Timespec
  tradeTime : Timespec

/-- A turn of a trader. -/
structure Turn (products : List Product) extends TurnDraws products where
  trader : List UInt8
  behavior : Behavior

/-- The brokers, and the master broker that all of them refer to. -/
structure Desk (T M : Type) [UnorderedMap T (List UInt8) QuoteGenerator]
    [UnorderedMap M (List UInt8) ℚ] where
  master : Broker T
  brokers : List (BrokerWithMargin M)

section

variable {T M : Type} [UnorderedMap T (List UInt8) QuoteGenerator] [UnorderedMap M (List UInt8) ℚ]

/-- `get_quotes`. The volume is a `double` on the way, which every 32-bit integer survives. -/
def getQuotes (p : List UInt8) (volume : UInt32) : (times : ℕ → Timespec) →
    List (BrokerWithMargin M) → Broker T →
    Except Failure (List Quote × List (BrokerWithMargin M) × Broker T)
  | _, [], master => .ok ([], [], master)
  | times, b :: brokers, master => do
    let (q, b, master) ← requestQuote b master (times 0) p volume
    let (quotes, brokers, master) ← getQuotes p volume (fun n => times (n + 1)) brokers master
    return (q :: quotes, b :: brokers, master)

variable {products : List Product}

/-- `operator()`. -/
def Desk.call (d : Desk T M) (t : Turn products) : Except Failure (Deal × Desk T M) := do
  let p ← chooseProduct products t.idx
  let (quotes, brokers, master) ← getQuotes p t.volume t.quoteTimes d.brokers d.master
  let q ← t.behavior.chooseQuote t.percent quotes
  return (⟨.ofQuote t.tradeTime t.trader q, quotes⟩, ⟨master, brokers⟩)

/-- A turn, as a step. -/
def Desk.step (d : Desk T M) (t : Turn products) : Except Failure Deal × Desk T M :=
  match d.call t with
  | .error failure => (.error failure, d)
  | .ok (deal, d) => (.ok deal, d)

/-- What `_margin_generator` yields for one broker, draw after draw. -/
abbrev Margins := ℕ → { margin : ℚ // 1 / 1000 ≤ margin ∧ margin ≤ 2 }

/-- The constructor of `broker_with_margin`. -/
def BrokerWithMargin.make (name : List UInt8) (margins : Margins) : BrokerWithMargin M :=
  ⟨name, empty, fun n => (margins n).1, fun n => (margins n).2, 0⟩

/-- The brokers of `main`, in the order of their table. -/
def Desk.make (products : List Product) (draws : ProductDraws products)
    (brokers : List (List UInt8 × Margins)) : Desk T M :=
  ⟨.make products draws, brokers.map fun b => .make b.1 b.2⟩

/-! ### One request -/

namespace BrokerWithMargin

variable {b : BrokerWithMargin M} {p q : List UInt8}

@[simp] theorem getMargin_name (b : BrokerWithMargin M) (p : List UInt8) :
    (b.getMargin p).2.name = b.name := by
  rw [getMargin]
  cases find? b.productMargin p <;> rfl

/-- The margin that was put on is known afterwards. -/
theorem find?_getMargin_self (b : BrokerWithMargin M) (p : List UInt8) :
    find? (b.getMargin p).2.productMargin p = some (b.getMargin p).1 := by
  rw [getMargin]
  cases hfind : find? b.productMargin p with
  | some margin => exact hfind
  | none => simp [UnorderedMap.find?_emplace_self, hfind]

/-- A known margin stays as it is. -/
theorem find?_getMargin_of_known {margin : ℚ} (h : find? b.productMargin q = some margin)
    (p : List UInt8) : find? (b.getMargin p).2.productMargin q = some margin := by
  rw [getMargin]
  cases hfind : find? b.productMargin p with
  | some _ => exact h
  | none =>
      have hne : q ≠ p := fun heq => by simp [heq, hfind] at h
      simpa [UnorderedMap.find?_emplace_of_ne _ _ hne] using h

/-- All margins that are known are within the bounds of the distribution. -/
def MarginsWithin (b : BrokerWithMargin M) : Prop :=
  ∀ p margin, find? b.productMargin p = some margin → 1 / 1000 ≤ margin ∧ margin ≤ 2

theorem MarginsWithin.positiveMargins (h : b.MarginsWithin) : b.PositiveMargins :=
  fun p margin hfind => lt_of_lt_of_le (by norm_num) (h p margin hfind).1

theorem MarginsWithin.getMargin (h : b.MarginsWithin) (p : List UInt8) :
    (b.getMargin p).2.MarginsWithin := by
  intro q margin hq
  rw [BrokerWithMargin.getMargin] at hq
  cases hfind : find? b.productMargin p with
  | some _ =>
      rw [hfind] at hq
      exact h q margin hq
  | none =>
      rw [hfind] at hq
      by_cases hqp : q = p
      · subst hqp
        simp only [UnorderedMap.find?_emplace_self, hfind, Option.getD_none,
          Option.some.injEq] at hq
        exact hq ▸ b.margins_within _
      · simp only [UnorderedMap.find?_emplace_of_ne _ _ hqp] at hq
        exact h q margin hq

end BrokerWithMargin

/-- What is known of a quote of a product, by the broker that gave it. -/
structure Quoted (initial : ℚ) (p : List UInt8) (volume : UInt32)
    (b : BrokerWithMargin M) (q : Quote) :
    Prop where
  origin : q.origin = b.name
  symbol : q.symbol = p
  volume : q.columns.volume = volume.toNat
  «open» : q.columns.open = initial + (b.getMargin p).1
  bar : IsBar q.columns

/-- The generators start from these prices. -/
def Broker.StartsFrom (broker : Broker T) (initial : List UInt8 → Option ℚ) : Prop :=
  ∀ p, (find? broker.quoters p).map (·.last) = initial p

theorem Broker.StartsFrom.exists_quoter {broker : Broker T} {initial : List UInt8 → Option ℚ}
    (h : broker.StartsFrom initial) {p : List UInt8} {price : ℚ} (hp : initial p = some price) :
    ∃ g, find? broker.quoters p = some g ∧ g.last = price :=
  Option.map_eq_some_iff.mp ((h p).trans hp)

/-- A quote is drawn from the generator of its product, whose price stays. -/
theorem Broker.StartsFrom.assign {broker : Broker T} {initial : List UInt8 → Option ℚ}
    (h : broker.StartsFrom initial) {p : List UInt8}
    {g : QuoteGenerator} (hg : initial p = some g.last) :
    (⟨UnorderedMap.assign broker.quoters p g⟩ : Broker T).StartsFrom initial := by
  intro q
  by_cases hq : q = p
  · subst hq
    obtain ⟨g', hg', -⟩ := h.exists_quoter hg
    simp [UnorderedMap.find?_assign_self, hg', hg]
  · simpa [UnorderedMap.find?_assign_of_ne _ _ hq] using h q

/-- **One request.** -/
theorem requestQuote_quoted {broker : Broker T} {initial : List UInt8 → Option ℚ}
    (h : broker.StartsFrom initial) {p : List UInt8} {price : ℚ} (hp : initial p = some price)
    (hprice : 0 < price) {volume : UInt32} (hvolume : 2 ≤ volume.toNat) {b : BrokerWithMargin M}
    (hmargins : b.MarginsWithin) (now : Timespec) :
    ∃ q broker', requestQuote b broker now p volume = .ok (q, (b.getMargin p).2, broker') ∧
      Quoted price p volume b q ∧ broker'.StartsFrom initial := by
  obtain ⟨g, hg, rfl⟩ := h.exists_quoter hp
  obtain ⟨v, g', hcall⟩ := QuoteGenerator.exists_call hvolume hprice
  obtain ⟨hopen, -, hlast⟩ := QuoteGenerator.call_ends hvolume hcall
  obtain ⟨f, hprices, hcount, -⟩ := QuoteGenerator.call_eq_some hcall
  obtain ⟨f', hprices', hf⟩ := g.prices_isFilling hvolume hprice
  obtain rfl : f = f' := Option.some.inj (hprices.symm.trans hprices')
  obtain ⟨v', hcall', hbar⟩ := QuoteGenerator.call_isBar hvolume hprices hf
  obtain rfl : v = v' := (Prod.mk.inj (Option.some.inj (hcall.symm.trans hcall'))).1
  have hpricer : broker.getPricer p = .ok g := by rw [Broker.getPricer, hg]
  have hlen : f.values.length = volume.toNat := by
    rw [hf.agree.length_eq, QuoteGenerator.length_ends]
  refine ⟨⟨now, b.name, p, v.addMargin (b.getMargin p).1⟩,
    ⟨UnorderedMap.assign broker.quoters p g'⟩,
    ?_, ⟨rfl, rfl, ?_, ?_, ?_⟩, h.assign (hp.trans (congrArg some hlast.symm))⟩
  · rw [requestQuote, hpricer]
    simp only [hcall, Bind.bind, Except.bind, Option.elim_some]
    rfl
  · rw [← hlen]
    exact hcount
  · rw [← hopen]
    rfl
  · exact hbar.addMargin (b.getMargin_pos hmargins.positiveMargins p).1

/-- **All quotes.** Every broker gives one, in the order of the brokers. -/
theorem getQuotes_quoted {initial : List UInt8 → Option ℚ} {p : List UInt8} {price : ℚ}
    (hp : initial p = some price) (hprice : 0 < price)
    {volume : UInt32} (hvolume : 2 ≤ volume.toNat)
    {brokers : List (BrokerWithMargin M)} (hmargins : ∀ b ∈ brokers, b.MarginsWithin)
    {master : Broker T} (h : master.StartsFrom initial) (times : ℕ → Timespec) :
    ∃ quotes master',
      getQuotes p volume times brokers master
        = .ok (quotes, brokers.map fun b => (b.getMargin p).2, master') ∧
      List.Forall₂ (Quoted price p volume) brokers quotes ∧ master'.StartsFrom initial := by
  induction brokers generalizing master times with
  | nil => exact ⟨[], master, rfl, .nil, h⟩
  | cons b brokers ih =>
      obtain ⟨hb, hbrokers⟩ := List.forall_mem_cons.mp hmargins
      obtain ⟨q, master₁, hrequest, hq, h₁⟩ := requestQuote_quoted h hp hprice hvolume hb (times 0)
      obtain ⟨quotes, master₂, hrest, hquotes, h₂⟩ := ih hbrokers h₁ fun n => times (n + 1)
      refine ⟨q :: quotes, master₂, ?_, .cons hq hquotes, h₂⟩
      simp only [getQuotes, hrequest, Bind.bind, Except.bind, hrest]
      rfl

/-! ### Choices -/

/-- The quote that is chosen is one of the quotes; it closes lowest, unless a cheater takes that of
the first broker. -/
structure Chosen (t : Turn products) (quotes : List Quote) (q : Quote) : Prop where
  mem : q ∈ quotes
  lowest : t.behavior = .greedy ∨ 80 ≤ t.percent → ∀ q' ∈ quotes, q.columns.close ≤ q'.columns.close
  first : t.behavior = .cheater → t.percent < 80 → quotes.head? = some q

theorem greedyQuote_eq {quotes : List Quote} (h : quotes ≠ []) :
    ∃ q, greedyQuote quotes = .ok q ∧ q ∈ quotes ∧
      ∀ q' ∈ quotes, q.columns.close ≤ q'.columns.close := by
  obtain ⟨q, hq⟩ : ∃ q, (quotes.argmin fun q => q.columns.close) = some q :=
    Option.ne_none_iff_exists'.mp (mt List.argmin_eq_none.mp h)
  refine ⟨q, by rw [greedyQuote, hq]; rfl, List.argmin_mem hq, fun q' hq' => ?_⟩
  exact List.le_of_mem_argmin (f := fun q : Quote => q.columns.close) hq' hq

theorem chooseQuote_chosen (t : Turn products) {quotes : List Quote} (h : quotes ≠ []) :
    ∃ q, t.behavior.chooseQuote t.percent quotes = .ok q ∧ Chosen t quotes q := by
  obtain ⟨q, hq, hmem, hle⟩ := greedyQuote_eq h
  cases hb : t.behavior with
  | greedy => exact ⟨q, hq, hmem, fun _ => hle, fun hc => absurd (hb.symm.trans hc) nofun⟩
  | cheater =>
      by_cases hpercent : t.percent < 80
      · obtain ⟨q₀, rest, rfl⟩ := List.exists_cons_of_ne_nil h
        refine ⟨q₀, by simp [Behavior.chooseQuote, hpercent],
          List.mem_cons_self, ?_, fun _ _ => rfl⟩
        intro hgreedy
        simp [hb, not_le.mpr hpercent] at hgreedy
      · exact ⟨q, by simp [Behavior.chooseQuote, hpercent, hq], hmem, fun _ => hle,
          fun _ hc => absurd hc hpercent⟩

/-! ### Turns of a desk -/

/-- **The invariant.** The generators start from the prices of the products, and margins are within
bounds. -/
structure Desk.Inv (initial : List UInt8 → Option ℚ) (d : Desk T M) : Prop where
  prices : d.master.StartsFrom initial
  margins : ∀ b ∈ d.brokers, b.MarginsWithin
  brokers_ne_nil : d.brokers ≠ []

/-- A deal with these brokers: each gives a quote of one product, at its own margin, and the trade
is one of the quotes. The brokers know their margins afterwards. -/
structure Dealt (t : Turn products) (d : Desk T M) (deal : Deal) (p : Product) (d' : Desk T M) :
    Prop where
  mem : p ∈ products
  quotes : List.Forall₂ (Quoted p.initial p.name t.volume) d.brokers deal.quotes
  trade : ∃ q, Chosen t deal.quotes q ∧ deal.trade = .ofQuote t.tradeTime t.trader q
  brokers : d'.brokers = d.brokers.map fun b => (b.getMargin p.name).2

/-- What the products start from, by their names. -/
def initialPrice (products : List Product) (p : List UInt8) : Option ℚ :=
  @List.lookup _ _ instBEqOfDecidableEq p (products.map fun p => (p.name, p.initial))

theorem initialPrice_eq (hnames : (products.map Product.name).Nodup)
    {p : Product} (hp : p ∈ products) :
    initialPrice products p.name = some p.initial := by
  have hkeys : ((products.map fun p => (p.name, p.initial)).map Prod.fst).Nodup := by
    rwa [List.map_map]
  exact (UnorderedMap.mem_iff_lookup hkeys _ _).mp (List.mem_map_of_mem hp)

/-- **Step lemma.** Every turn ends with a deal. -/
theorem Desk.Inv.step (hnames : (products.map Product.name).Nodup)
    (hprices : ∀ p ∈ products, 0 < p.initial)
    {d : Desk T M} (h : d.Inv (initialPrice products)) (t : Turn products) :
    ∃ deal p d', d.step t = (.ok deal, d') ∧ Dealt t d deal p d' ∧
      d'.Inv (initialPrice products) := by
  obtain ⟨p, hp⟩ : ∃ p, products[t.idx]? = some p := ⟨_, List.getElem?_eq_getElem t.idx_within⟩
  have hmem : p ∈ products := List.mem_of_getElem? hp
  have hvolume : 2 ≤ t.volume.toNat := le_trans (by norm_num) t.volume_within.1
  obtain ⟨quotes, master, hquotes, hquoted, hmaster⟩ :=
    getQuotes_quoted (initialPrice_eq hnames hmem)
    (hprices p hmem) hvolume h.margins h.prices t.quoteTimes
  have hne : quotes ≠ [] :=
    fun hnil => h.brokers_ne_nil (List.forall₂_nil_right_iff.mp (hnil ▸ hquoted))
  obtain ⟨q, hchoose, hchosen⟩ := chooseQuote_chosen t hne
  have hcall : d.call t = .ok (⟨.ofQuote t.tradeTime t.trader q, quotes⟩,
      ⟨master, d.brokers.map fun b => (b.getMargin p.name).2⟩) := by
    simp only [Desk.call, chooseProduct, hp, Bind.bind, Except.bind, hquotes, hchoose]
    rfl
  refine ⟨_, p, _, by rw [Desk.step, hcall], ⟨hmem, hquoted, ⟨q, hchosen, rfl⟩, rfl⟩,
    hmaster, ?_, ?_⟩
  · intro b hb
    obtain ⟨b₀, hb₀, rfl⟩ := List.mem_map.mp hb
    exact (h.margins b₀ hb₀).getMargin _
  · simpa using h.brokers_ne_nil

/-- A new desk. -/
theorem Desk.inv_make (draws : ProductDraws products) {brokers : List (List UInt8 × Margins)}
    (hbrokers : brokers ≠ []) :
    (Desk.make products draws brokers : Desk T M).Inv (initialPrice products) := by
  refine ⟨fun p => ?_, fun b hb => ?_, by simpa [Desk.make] using hbrokers⟩
  · have hlookup := UnorderedMap.lookup_map (f := id) Function.injective_id QuoteGenerator.last
      (products.attach.map fun p =>
        (p.1.name, QuoteGenerator.make p.1.initial p.1.amplitude (draws p.1 p.2))) p
    have hinitial : (products.attach.map fun p => (p.1.name, p.1.initial))
        = products.map fun p => (p.name, p.initial) :=
      @List.attach_map_val _ _ products fun p => (p.name, p.initial)
    rw [List.map_map] at hlookup
    rw [Desk.make, Broker.make, UnorderedMap.find?_emplaceAll, UnorderedMap.find?_empty,
      Option.none_or, initialPrice, ← hinitial]
    exact hlookup.symm
  · obtain ⟨⟨name, margins⟩, -, rfl⟩ := List.mem_map.mp hb
    intro p margin hp
    simp [BrokerWithMargin.make, UnorderedMap.find?_empty] at hp

theorem exists_of_forall₂ {α β : Type*} {R : α → β → Prop} {as : List α} {bs : List β}
    (h : List.Forall₂ R as bs) {b : β} (hb : b ∈ bs) : ∃ a ∈ as, R a b := by
  induction h with
  | nil => cases hb
  | @cons a b' as bs hab _ ih =>
      rcases List.mem_cons.mp hb with rfl | hb
      · exact ⟨a, List.mem_cons_self, hab⟩
      · obtain ⟨a', ha', hR⟩ := ih hb
        exact ⟨a', List.mem_cons_of_mem a ha', hR⟩

theorem Dealt.names {t : Turn products} {d d' : Desk T M} {deal : Deal} {p : Product}
    (h : Dealt t d deal p d') :
    deal.quotes.map (·.origin) = d.brokers.map (·.name) ∧
      d'.brokers.map (·.name) = d.brokers.map (·.name) := by
  refine ⟨?_, by simp [h.brokers]⟩
  have hnames : List.Forall₂ Eq (d.brokers.map (·.name)) (deal.quotes.map (·.origin)) := by
    rw [List.forall₂_map_left_iff, List.forall₂_map_right_iff]
    exact h.quotes.imp fun b q hquoted => hquoted.origin.symm
  rw [List.forall₂_eq_eq_eq] at hnames
  exact hnames.symm

/-! ### Margins -/

/-- The broker of the quote knows its margin on the product. -/
def Desk.Knows (products : List Product) (d : Desk T M) (q : Quote) : Prop :=
  ∃ b ∈ d.brokers, ∃ p ∈ products, ∃ margin, q.origin = b.name ∧ q.symbol = p.name ∧
    find? b.productMargin p.name = some margin ∧ q.columns.open = p.initial + margin

/-- The quotes of a deal are known, and so is what was known before. -/
theorem Dealt.knows {t : Turn products} {d d' : Desk T M} {deal : Deal} {p : Product}
    (h : Dealt t d deal p d') {q : Quote} (hq : q ∈ deal.quotes ∨ d.Knows products q) :
    d'.Knows products q := by
  rcases hq with hq | ⟨b, hb, p', hp', margin, horigin, hsymbol, hmargin, hopen⟩
  · obtain ⟨b, hb, hquoted⟩ := exists_of_forall₂ h.quotes hq
    refine ⟨(b.getMargin p.name).2, h.brokers ▸ List.mem_map_of_mem hb,
      p, h.mem, _, ?_, hquoted.symbol,
      b.find?_getMargin_self p.name, hquoted.open⟩
    simpa using hquoted.origin
  · refine ⟨(b.getMargin p.name).2, h.brokers ▸ List.mem_map_of_mem hb,
      p', hp', margin, ?_, hsymbol,
      BrokerWithMargin.find?_getMargin_of_known hmargin p.name, hopen⟩
    simpa using horigin

/-! ### Runs -/

/-- A fair deal: every broker quotes one product, at a bar that opens at the initial price and a
margin, and the trade is one of the quotes. -/
structure IsDeal (t : Turn products) (names : List (List UInt8)) (deal : Deal) : Prop where
  origins : deal.quotes.map (·.origin) = names
  quotes : ∃ p ∈ products, ∀ q ∈ deal.quotes, q.symbol = p.name ∧
    q.columns.volume = t.volume.toNat ∧ IsBar q.columns
  trade : ∃ q, Chosen t deal.quotes q ∧ deal.trade = .ofQuote t.tradeTime t.trader q

theorem Dealt.isDeal {t : Turn products} {d d' : Desk T M} {deal : Deal} {p : Product}
    (h : Dealt t d deal p d') : IsDeal t (d.brokers.map (·.name)) deal := by
  refine ⟨h.names.1, ⟨p, h.mem, fun q hq => ?_⟩, h.trade⟩
  obtain ⟨b, -, hquoted⟩ := exists_of_forall₂ h.quotes hq
  exact ⟨hquoted.symbol, hquoted.volume, hquoted.bar⟩

variable (products) in
/-- Products as the table has them: their names are different, and their prices positive. -/
structure Listed : Prop where
  names : (products.map Product.name).Nodup
  prices : ∀ p ∈ products, 0 < p.initial

/-- The products of `add_dow_jones`. -/
def dowJones : List Product :=
  [⟨ascii "MMM", 190, 1⟩, ⟨ascii "AXP", 80, 11 / 10⟩, ⟨ascii "AAPL", 139, 3 / 2⟩,
    ⟨ascii "BA", 183, 1 / 5⟩, ⟨ascii "CAT", 95, 3 / 10⟩, ⟨ascii "CVX", 114, 4 / 5⟩,
    ⟨ascii "CSCO", 35, 1 / 5⟩, ⟨ascii "KO", 43, 1 / 100⟩, ⟨ascii "DD", 797 / 10, 1 / 5⟩,
    ⟨ascii "XOM", 833 / 10, 1⟩, ⟨ascii "GE", 30, 1 / 10⟩, ⟨ascii "GS", 251, 1⟩,
    ⟨ascii "HD", 295 / 2, 1⟩, ⟨ascii "IBM", 180, 3 / 2⟩, ⟨ascii "INTC", 36, 1 / 100⟩,
    ⟨ascii "JNJ", 124, 1⟩, ⟨ascii "JPM", 92, 1⟩, ⟨ascii "MCD", 128, 3 / 2⟩, ⟨ascii "MRK", 66, 1⟩,
    ⟨ascii "MSFT", 64, 3 / 2⟩, ⟨ascii "NKE", 289 / 5, 8 / 5⟩, ⟨ascii "PFE", 64, 1⟩,
    ⟨ascii "PG", 91, 1⟩, ⟨ascii "TRV", 124, 3 / 2⟩, ⟨ascii "UNH", 168, 2⟩, ⟨ascii "UTX", 112, 1⟩,
    ⟨ascii "VZ", 50, 1 / 2⟩, ⟨ascii "V", 8853 / 100, 1 / 10⟩, ⟨ascii "WMT", 1769 / 25, 1 / 10⟩,
    ⟨ascii "DIS", 110, 1⟩]

/-- The products of `make_products`, in whatever order their table has them. -/
theorem Listed.of_perm (h : products.Perm dowJones) : Listed products where
  names := by
    have hnames : (dowJones.map Product.name).Nodup := by decide +kernel
    exact (h.map Product.name).nodup_iff.mpr hnames
  prices := by
    have hprices : ∀ p ∈ dowJones, 0 < p.initial := by decide +kernel
    exact fun p hp => hprices p (h.mem_iff.mp hp)

/-- Draws in the middle. -/
def middleDraws : ProductDraws dowJones := by
  have hamplitudes : ∀ p ∈ dowJones, 0 ≤ p.amplitude := by decide +kernel
  exact fun p hp =>
    ⟨fun _ => 0, fun _ => ⟨by linarith [hamplitudes p hp], by linarith [hamplitudes p hp]⟩⟩

/-- The brokers of `make_brokers`, with a margin of one each. -/
def evenBrokers : List (List UInt8 × Margins) :=
  [ascii "bloom", ascii "tom", ascii "xtnd", ascii "nile"].map fun name =>
    (name, fun _ => ⟨1, by norm_num, by norm_num⟩)

/-- A turn of a trader with the third product. -/
def sampleTurn (trader : List UInt8) (behavior : Behavior) : Turn dowJones where
  idx := 2
  idx_within := by decide
  percent := 10
  percent_within := by decide
  volume := 100
  volume_within := by decide
  quoteTimes n := ⟨n, 0⟩
  tradeTime := ⟨4, 0⟩
  trader := trader
  behavior := behavior

/-- **Run lemma.** The margins of all quotes of a run are known in the end. -/
theorem Desk.Inv.knows_run (h : Listed products) {d : Desk T M}
    (hInv : d.Inv (initialPrice products))
    (turns : List (Turn products)) :
    (run Desk.step d turns).Inv (initialPrice products) ∧
      (run Desk.step d turns).brokers.map (·.name) = d.brokers.map (·.name) ∧
      ∀ q, d.Knows products q ∨ (∃ deal, .ok deal ∈ outputs Desk.step d turns ∧ q ∈ deal.quotes) →
        (run Desk.step d turns).Knows products q := by
  induction turns generalizing d with
  | nil =>
      refine ⟨hInv, rfl, fun q hq => ?_⟩
      rcases hq with hq | ⟨deal, hdeal, -⟩
      · exact hq
      · cases hdeal
  | cons t turns ih =>
      obtain ⟨deal, p, d', hstep, hdealt, hInv'⟩ := hInv.step h.names h.prices t
      obtain ⟨hlast, hnames, hknows⟩ := ih hInv'
      rw [run_cons, outputs_cons, hstep]
      refine ⟨hlast, hnames.trans hdealt.names.2, fun q hq => hknows q ?_⟩
      rcases hq with hq | ⟨deal', hdeal', hq⟩
      · exact Or.inl (hdealt.knows (Or.inr hq))
      · rcases List.mem_cons.mp hdeal' with heq | hmem
        · cases heq
          exact Or.inl (hdealt.knows (Or.inl hq))
        · exact Or.inr ⟨deal', hmem, hq⟩

/-- The margin of a broker, once it is known. -/
def Desk.margin (d : Desk T M) (name p : List UInt8) : ℚ :=
  ((d.brokers.find? fun b => decide (b.name = name)).bind fun b => find? b.productMargin p).getD 1

theorem Desk.Inv.margin_within {initial : List UInt8 → Option ℚ} {d : Desk T M} (h : d.Inv initial)
    (name p : List UInt8) : 1 / 1000 ≤ d.margin name p ∧ d.margin name p ≤ 2 := by
  rw [Desk.margin]
  cases hfind : d.brokers.find? fun b => decide (b.name = name) with
  | none => norm_num
  | some b =>
      cases hmargin : find? b.productMargin p with
      | none => norm_num [hmargin]
      | some margin =>
          simpa [hmargin] using h.margins b (List.mem_of_find?_eq_some hfind) p margin hmargin

/-- Brokers are told apart by their names. -/
theorem Desk.margin_eq {d : Desk T M} (hnodup : (d.brokers.map (·.name)).Nodup)
    {b : BrokerWithMargin M}
    (hb : b ∈ d.brokers) {p : List UInt8} {margin : ℚ} (h : find? b.productMargin p = some margin) :
    d.margin b.name p = margin := by
  obtain ⟨b', hfind⟩ : ∃ b', d.brokers.find? (fun b' => decide (b'.name = b.name)) = some b' :=
    Option.isSome_iff_exists.mp (List.find?_isSome.mpr ⟨b, hb, decide_eq_true rfl⟩)
  have hname : b'.name = b.name := by simpa using List.find?_some hfind
  have hsame : b' = b := List.inj_on_of_nodup_map hnodup (List.mem_of_find?_eq_some hfind) hb hname
  rw [Desk.margin, hfind, hsame, Option.bind_some, h, Option.getD_some]

/-- **Every broker has one margin for a product.** In every sequence of turns from a new desk, there
is one margin for every broker and product, within the bounds of its distribution, at which all
quotes of this broker for the product open above its initial price. -/
theorem opens_at_one_margin (h : Listed products) (draws : ProductDraws products)
    {brokers : List (List UInt8 × Margins)} (hbrokers : brokers ≠ [])
    (hdistinct : (brokers.map Prod.fst).Nodup) (turns : List (Turn products)) :
    ∃ margin : List UInt8 → List UInt8 → ℚ,
      (∀ name p, 1 / 1000 ≤ margin name p ∧ margin name p ≤ 2) ∧
      ∀ deal, .ok deal ∈ outputs Desk.step (Desk.make products draws brokers : Desk T M) turns →
        ∀ q ∈ deal.quotes, ∃ p ∈ products, q.symbol = p.name ∧
          q.columns.open = p.initial + margin q.origin q.symbol := by
  obtain ⟨hInv, hnames, hknows⟩ :=
    Desk.Inv.knows_run h (Desk.inv_make (T := T) (M := M) draws hbrokers) turns
  generalize run Desk.step (Desk.make products draws brokers : Desk T M) turns
    = last at hInv hnames hknows
  have hnodup : (last.brokers.map (·.name)).Nodup := by
    rw [hnames]
    simpa [Desk.make, BrokerWithMargin.make, Function.comp_def] using hdistinct
  refine ⟨last.margin, hInv.margin_within, fun deal hdeal q hq => ?_⟩
  obtain ⟨b, hb, p, hp, margin, horigin, hsymbol, hmargin, hopen⟩ :=
    hknows q (Or.inr ⟨deal, hdeal, hq⟩)
  refine ⟨p, hp, hsymbol, ?_⟩
  rw [hopen, horigin, hsymbol, Desk.margin_eq hnodup hb hmargin]

/-- The same turns. -/
theorem sample_turns_open_at_one_margin :
    ∃ margin : List UInt8 → List UInt8 → ℚ,
      (∀ name p, 1 / 1000 ≤ margin name p ∧ margin name p ≤ 2) ∧
      ∀ deal, .ok deal ∈ outputs Desk.step
          (Desk.make dowJones middleDraws evenBrokers :
            Desk (AssocList (List UInt8) QuoteGenerator) (AssocList (List UInt8) ℚ))
          [sampleTurn (ascii "Bob") .greedy, sampleTurn (ascii "Cobra") .cheater] →
        ∀ q ∈ deal.quotes, ∃ p ∈ dowJones, q.symbol = p.name ∧
          q.columns.open = p.initial + margin q.origin q.symbol :=
  opens_at_one_margin (Listed.of_perm (List.Perm.refl dowJones)) middleDraws (List.cons_ne_nil _ _)
    (by decide) _

end

end TradingDesk.Simulator
