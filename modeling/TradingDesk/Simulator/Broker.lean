import TradingDesk.Core.Machine
import TradingDesk.Core.UnorderedMap
import TradingDesk.Simulator.QuoteGenerator
import TradingDesk.Utils.Timespec

/-!
# TradingDesk.Simulator.Broker

**Quotes with a margin** (`broker.hpp`). The master broker has a generator for each
product; a broker with a margin asks it for a quote and puts the margin on, which it has
drawn when it was first asked for the product. All prices of a bar move by the same
margin, so a bar remains a bar.
-/

namespace TradingDesk.Simulator

open TradingDesk.Core
open TradingDesk.Core.UnorderedMap (find? assign emplace empty emplaceAll)
open TradingDesk.Utils (Timespec)

/-! ### Brokers -/

/-- `product`. -/
structure Product where
  name : List UInt8
  initial : ℚ
  amplitude : ℚ

/-- Why there is no quote. -/
inductive Failure
  /-- A `std::runtime_error`. -/
  | exception (what : String)
  /-- A failed assert, or an access out of range. -/
  | undefined
  deriving Repr, DecidableEq

/-- `broker`. -/
structure Broker (T : Type) [UnorderedMap T (List UInt8) QuoteGenerator] where
  quoters : T

/-- `broker_with_margin`, without its reference to the master broker. What
`_margin_generator` yields is within the bounds of its distribution. -/
structure BrokerWithMargin (M : Type) [UnorderedMap M (List UInt8) ℚ] where
  name : List UInt8
  productMargin : M
  margins : ℕ → ℚ
  margins_within (n : ℕ) : 1 / 1000 ≤ margins n ∧ margins n ≤ 2
  drawn : ℕ

/-- `quote`. -/
structure Quote where
  timestamp : Timespec
  origin : List UInt8
  symbol : List UInt8
  columns : Values

section

variable {T M : Type} [UnorderedMap T (List UInt8) QuoteGenerator] [UnorderedMap M (List UInt8) ℚ]

/-- What the distributions of all generators yield. -/
abbrev ProductDraws (products : List Product) := ∀ p ∈ products, Draws p.amplitude

/-- The constructor of `broker`, from the products in the order of their table. -/
def Broker.make (products : List Product) (draws : ProductDraws products) : Broker T :=
  ⟨emplaceAll empty (products.attach.map fun p =>
    (p.1.name, .make p.1.initial p.1.amplitude (draws p.1 p.2)))⟩

/-- `get_pricer`. -/
def Broker.getPricer (broker : Broker T) (p : List UInt8) : Except Failure QuoteGenerator :=
  match find? broker.quoters p with
  | none => .error (.exception "unknown product")
  | some g => .ok g

/-- `get_margin`. -/
def BrokerWithMargin.getMargin (b : BrokerWithMargin M) (p : List UInt8) : ℚ × BrokerWithMargin M :=
  match find? b.productMargin p with
  | some margin => (margin, b)
  | none =>
    let margin := b.margins b.drawn
    (margin, { b with productMargin := emplace b.productMargin p margin, drawn := b.drawn + 1 })

/-- The four updates of `request_quote`. -/
def Values.addMargin (v : Values) (margin : ℚ) : Values :=
  { v with high := v.high + margin, low := v.low + margin, «open» := v.open + margin,
           close := v.close + margin }

/-- `request_quote`, with the clock's reading. The generator stays in the master broker. -/
def requestQuote (b : BrokerWithMargin M) (broker : Broker T) (now : Timespec) (p : List UInt8)
    (volume : UInt32) : Except Failure (Quote × BrokerWithMargin M × Broker T) := do
  let g ← broker.getPricer p
  let (columns, g) ← (g.call volume).elim (.error .undefined) .ok
  let q : Quote := ⟨now, b.name, p, columns⟩
  let (margin, b) := b.getMargin p
  return ({ q with columns := q.columns.addMargin margin }, b, ⟨assign broker.quoters p g⟩)

/-! ### One quote -/

variable {b : BrokerWithMargin M} {broker : Broker T} {p : List UInt8} {g : QuoteGenerator}
  {volume : UInt32}

theorem IsBar.addMargin {v : Values} (h : IsBar v) {margin : ℚ} (hmargin : 0 < margin) :
    IsBar (v.addMargin margin) where
  low_pos := add_pos h.low_pos hmargin
  low_le_open := add_le_add_left h.low_le_open margin
  open_le_high := add_le_add_left h.open_le_high margin
  low_le_close := add_le_add_left h.low_le_close margin
  close_le_high := add_le_add_left h.close_le_high margin

/-- All margins that are known are positive. -/
def BrokerWithMargin.PositiveMargins (b : BrokerWithMargin M) : Prop :=
  ∀ p margin, find? b.productMargin p = some margin → 0 < margin

/-- A margin that is drawn now is positive as well. -/
theorem BrokerWithMargin.getMargin_pos (h : b.PositiveMargins) (p : List UInt8) :
    0 < (b.getMargin p).1 ∧ (b.getMargin p).2.PositiveMargins := by
  rw [getMargin]
  cases hfind : find? b.productMargin p with
  | some margin => exact ⟨h p margin hfind, h⟩
  | none =>
      have hpos : 0 < b.margins b.drawn := lt_of_lt_of_le (by norm_num) (b.margins_within _).1
      refine ⟨hpos, fun q margin hq => ?_⟩
      by_cases hqp : q = p
      · rw [hqp, UnorderedMap.find?_emplace_self, hfind, Option.getD_none, Option.some.injEq] at hq
        exact hq ▸ hpos
      · rw [UnorderedMap.find?_emplace_of_ne _ _ hqp] at hq
        exact h q margin hq

/-- **A request for a known product.** -/
theorem requestQuote_eq (hg : find? broker.quoters p = some g) (hlast : 0 < g.last)
    (hvolume : 2 ≤ volume.toNat) (hmargins : b.PositiveMargins) (now : Timespec) :
    ∃ f quote, g.prices volume = some f ∧ IsFilling (g.ends volume) 0 volume.toNat f ∧
      requestQuote b broker now p volume
        = .ok (quote, (b.getMargin p).2, ⟨assign broker.quoters p { g with drawn := f.drawn }⟩) ∧
      IsBar quote.columns := by
  obtain ⟨f, hprices, hf⟩ := g.prices_isFilling hvolume hlast
  obtain ⟨v, hcall, hbar⟩ := QuoteGenerator.call_isBar hvolume hprices hf
  refine ⟨f, ⟨now, b.name, p, v.addMargin (b.getMargin p).1⟩, hprices, hf, ?_,
    hbar.addMargin (b.getMargin_pos hmargins p).1⟩
  have hpricer : broker.getPricer p = .ok g := by rw [Broker.getPricer, hg]
  rw [requestQuote, hpricer]
  simp only [hcall, Bind.bind, Except.bind, Option.elim_some]
  rfl

/-- **Every quote is a well-formed bar.** For every volume of at least two, every positive
initial price and every amplitude, whatever is drawn within the bounds: the recursion comes to
an end with no assert failed, and its prices fill the vector between positive bounds; and what is
quoted with a positive margin is a bar. -/
theorem request_quote_is_bar (hg : find? broker.quoters p = some g) (hlast : 0 < g.last)
    (hvolume : 2 ≤ volume.toNat) (hmargins : b.PositiveMargins) (now : Timespec) :
    ∃ f quote b' broker',
      fillValues g.draws.value (g.ends volume) (g.drawn + 1) 0 volume.toNat 1 = some f ∧
      IsFilling (g.ends volume) 0 volume.toNat f ∧
      g.prices volume = some f ∧ f.values.length = volume.toNat ∧ (∀ x ∈ f.values, 0 < x) ∧
      requestQuote b broker now p volume = .ok (quote, b', broker') ∧ IsBar quote.columns := by
  obtain ⟨f, quote, hprices, hf, hrequest, hbar⟩ := requestQuote_eq hg hlast hvolume hmargins now
  have hfill : fillValues g.draws.value (g.ends volume) (g.drawn + 1) 0 volume.toNat 1
      = some f := by
    rw [← hprices, QuoteGenerator.prices, guard, if_pos (by omega)]
    rfl
  refine ⟨f, quote, _, _, hfill, hf, hprices, ?_, ?_, hrequest, hbar⟩
  · rw [hf.agree.length_eq, QuoteGenerator.length_ends]
  · rw [← QuoteGenerator.length_ends g volume] at hf
    exact hf.values_pos

/-- Three units at a margin of one. -/
theorem three_units_are_bar :
    ∃ quote b' broker', requestQuote (T := AssocList (List UInt8) QuoteGenerator)
        (M := AssocList (List UInt8) ℚ)
        ⟨[], empty, fun _ => 1, fun _ => ⟨by decide +kernel, by decide +kernel⟩, 0⟩
        ⟨emplace empty [65]
          (.make 10 1 ⟨fun _ => 1 / 4, fun _ => ⟨by decide +kernel, by decide +kernel⟩⟩)⟩
        ⟨0, 0⟩ [65] 3 = .ok (quote, b', broker') ∧ IsBar quote.columns := by
  obtain ⟨-, quote, b', broker', -, -, -, -, -, hrequest, hbar⟩ :=
    @request_quote_is_bar (AssocList (List UInt8) QuoteGenerator) (AssocList (List UInt8) ℚ) _ _
      ⟨[], empty, fun _ => 1, fun _ => ⟨by decide +kernel, by decide +kernel⟩, 0⟩
      ⟨emplace empty [65]
        (.make 10 1 ⟨fun _ => 1 / 4, fun _ => ⟨by decide +kernel, by decide +kernel⟩⟩)⟩
      [65] _ 3 rfl (by norm_num [QuoteGenerator.make]) (by decide) (fun _ _ h => by cases h) ⟨0, 0⟩
  exact ⟨quote, b', broker', hrequest, hbar⟩

/-! ### Runs -/

/-- What a trader asks for. -/
structure Request where
  now : Timespec
  product : List UInt8
  volume : UInt32

/-- One request to the two brokers. Without a quote, nothing has changed. -/
def requestStep (s : BrokerWithMargin M × Broker T) (r : Request) :
    Except Failure Quote × (BrokerWithMargin M × Broker T) :=
  match requestQuote s.1 s.2 r.now r.product r.volume with
  | .error failure => (.error failure, s)
  | .ok (quote, b, broker) => (.ok quote, (b, broker))

/-- The request is of a known product, and of at least two units. -/
def CanBeQuoted (s : BrokerWithMargin M × Broker T) (r : Request) : Prop :=
  2 ≤ r.volume.toNat ∧ (find? s.2.quoters r.product).isSome

/-- The answer is a bar. -/
def AnswersWithBar (s : BrokerWithMargin M × Broker T) (r : Request) : Prop :=
  ∃ quote, (requestStep s r).1 = .ok quote ∧ IsBar quote.columns

/-- **The invariant.** All prices and margins are positive. -/
structure Positive (s : BrokerWithMargin M × Broker T) : Prop where
  prices : ∀ p g, find? s.2.quoters p = some g → 0 < g.last
  margins : s.1.PositiveMargins

/-- **Step lemma.** -/
theorem Positive.step {s : BrokerWithMargin M × Broker T} (h : Positive s) {r : Request}
    (hr : CanBeQuoted s r) : AnswersWithBar s r ∧ Positive (requestStep s r).2 := by
  obtain ⟨hvolume, hknown⟩ := hr
  obtain ⟨g, hg⟩ := Option.isSome_iff_exists.mp hknown
  have hlast := h.prices _ g hg
  obtain ⟨f, quote, -, -, hrequest, hbar⟩ := requestQuote_eq hg hlast hvolume h.margins r.now
  have hstep : requestStep s r = (.ok quote, (s.1.getMargin r.product).2,
      ⟨assign s.2.quoters r.product { g with drawn := f.drawn }⟩) := by
    rw [requestStep, hrequest]
  refine ⟨⟨quote, by rw [hstep], hbar⟩, ?_⟩
  rw [hstep]
  refine ⟨fun q g' hg' => ?_, (s.1.getMargin_pos h.margins r.product).2⟩
  -- only the generator that was asked has moved, and its price has not
  by_cases hq : q = r.product
  · rw [hq, UnorderedMap.find?_assign_self, hg, Option.map_some, Option.some.injEq] at hg'
    rw [← hg']
    exact hlast
  · rw [UnorderedMap.find?_assign_of_ne _ _ hq] at hg'
    exact h.prices q g' hg'

/-- The generators of a new master broker have the initial prices. -/
theorem Broker.make_prices {products : List Product} (draws : ProductDraws products)
    (h : ∀ p ∈ products, 0 < p.initial) :
    ∀ p g, find? (Broker.make products draws : Broker T).quoters p = some g → 0 < g.last := by
  intro p g hg
  obtain ⟨⟨product, hproduct⟩, -, heq⟩ := List.mem_map.mp (UnorderedMap.mem_of_find?_emplaceAll hg)
  obtain ⟨-, rfl⟩ := Prod.mk.inj heq
  exact h product hproduct

/-- **Run lemma.** Over products of positive prices, every request of a run that is for a known
product and at least two units is answered with a bar. -/
theorem quotes_are_bars {products : List Product} (draws : ProductDraws products)
    (h : ∀ p ∈ products, 0 < p.initial) (hmargins : b.PositiveMargins) {requests : List Request}
    (hrequests : Along requestStep CanBeQuoted
      (b, (Broker.make products draws : Broker T)) requests) :
    Along requestStep AnswersWithBar (b, (Broker.make products draws : Broker T)) requests :=
  along_induction Positive ⟨Broker.make_prices draws h, hmargins⟩ (fun _ _ hs hr => hs.step hr)
    hrequests

end

end TradingDesk.Simulator
