import TradingDesk.Exec.Levels
import TradingDesk.Itch.Layout

/-!
# TradingDesk.Exec.Resolution

**The resolution of book prices.** A price comes from the wire as ten-thousandths and is
kept as thousandths: `convertToFix_priceValue` says that what is left of a wire price
`k` is `k / 10`. So a book tells apart, and orders, what the feed does, exactly if no
two prices of orders on one side differ in the last digit alone.
-/

namespace TradingDesk.Exec

open TradingDesk.Core
open UnorderedMap (find?)
open ExecutionEngine (replay runOrder convertToFix)

/-! ### From the wire to the book -/

/-- In exact arithmetic the last digit of a price is lost. -/
theorem convertToFix_priceValue (k : UInt32) :
    convertToFix (Itch.priceValue k.toNat : ℚ) = k / 10 := by
  have hthousand : ((UInt32.toNat 1000 : ℕ) : ℚ) = 1000 := rfl
  have hscaled : (k.toNat : ℚ) / 10000 * 1000 = (k.toNat : ℚ) / ((10 : ℕ) : ℚ) := by
    push_cast
    ring
  have hfloor : ⌊(k.toNat : ℚ) / 10000 * 1000⌋ = ((k.toNat / 10 : ℕ) : ℤ) := by
    rw [hscaled, Rat.floor_natCast_div_natCast]
    norm_cast
  rw [convertToFix, Itch.priceValue_rat k.toNat_lt]
  show UInt32.ofNat ⌊(k.toNat : ℚ) / 10000 * ((UInt32.toNat 1000 : ℕ) : ℚ)⌋.toNat = k / 10
  rw [hthousand, hfloor, Int.toNat_natCast, ← UInt32.toNat_inj, UInt32.toNat_div]
  exact UInt32.toNat_ofNat_of_lt' (lt_of_le_of_lt (Nat.div_le_self _ _) k.toNat_lt)

/-- An add record, with the `Price(4)` that its price was on the wire. -/
structure FeedAdd where
  record : OrderRecord ℚ
  wirePrice : UInt32
  isAdd : record.action = .add
  price_eq : record.price = Itch.priceValue wirePrice.toNat

theorem FeedAdd.order_eq (a : FeedAdd) :
    a.record.order = ⟨a.wirePrice / 10, a.record.shares⟩ := by
  rw [OrderRecord.order, a.price_eq, convertToFix_priceValue]

/-- The add that a reference on a side was introduced by: of several the first, since
`emplace` keeps what is there. -/
def introducedBy (adds : List FeedAdd) (s : Side) (ref : UInt64) : Option FeedAdd :=
  adds.find? fun a => decide (a.record.side = s ∧ a.record.reference = ref)

/-- The wire price of the order under a reference on a side. -/
def feedPrice (adds : List FeedAdd) (s : Side) (ref : UInt64) : Option UInt32 :=
  (introducedBy adds s ref).map FeedAdd.wirePrice

/-- **What rests after a run of adds.** -/
theorem run_adds (adds : List FeedAdd) (b : Resting) (s : Side) (ref : UInt64) :
    run Resting.step b (adds.map FeedAdd.record) s ref
      = (b s ref).or ((introducedBy adds s ref).map fun a => a.record.order) := by
  induction adds generalizing b with
  | nil => exact Option.or_none.symm
  | cons a adds ih =>
      have hstep : (b.step a.record).2 = b.add a.record.side a.record.reference a.record.order := by
        rw [Resting.step, a.isAdd]
      rw [List.map_cons, run_cons, hstep, ih, introducedBy, introducedBy, List.find?_cons,
        Resting.add, Resting.set_apply]
      by_cases hkey : a.record.side = s ∧ a.record.reference = ref
      · obtain ⟨rfl, rfl⟩ := hkey
        cases b a.record.side a.record.reference <;> simp
      · have hother : ¬ (s = a.record.side ∧ ref = a.record.reference) :=
          fun hc => hkey ⟨hc.1.symm, hc.2.symm⟩
        rw [if_neg hother, decide_eq_false hkey]

variable {T : Type} [UnorderedMap T UInt64 Order]

theorem resting_replay_adds (adds : List FeedAdd) (s : Side) (ref : UInt64) :
    (replay T (adds.map FeedAdd.record)).resting s ref
      = (introducedBy adds s ref).map fun a => a.record.order := by
  rw [ExecutionEngine.resting_replay, run_adds, Resting.empty, Option.none_or]

/-! ### Levels -/

/-- The position of an order's level in a collapsed book. -/
def levelOf (levels : CollapsedBook) (o : Order) : Nat := position o.price levels

/-- Levels in the book of a side compare as the prices of the orders do. -/
theorem levelOf_iff {e : ExecutionEngine T} {s : Side} {ref ref' : UInt64} {o o' : Order}
    (h : e.resting s ref = some o) (h' : e.resting s ref' = some o') :
    (levelOf (collapseBook (e.book s)) o = levelOf (collapseBook (e.book s)) o' ↔
      o.price = o'.price) ∧
      (levelOf (collapseBook (e.book s)) o < levelOf (collapseBook (e.book s)) o' ↔
        o.price < o'.price) := by
  have hsorted : (e.book s).Pairwise fun a b => a.price ≤ b.price := by
    rw [e.book_eq]
    exact makeBook_sorted _
  have hmem : ∀ {ref o}, e.resting s ref = some o →
      o.price ∈ (collapseBook (e.book s)).map Prod.fst := by
    intro ref o ho
    have hbook : (o, ref) ∈ e.book s := by
      rw [e.book_eq]
      exact mem_makeBook.mpr ho
    rw [collapseBook_eq hsorted, levelsOf, List.map_map]
    exact mem_keys_runs.mpr ⟨_, hbook, rfl⟩
  refine position_iff ?_ (hmem h) (hmem h')
  rw [collapseBook_eq hsorted, levelsOf]
  exact List.pairwise_map.mpr (pairwise_runs hsorted)

/-- Two orders of one side are on one level of its collapsed book exactly if their feed
prices are equal, and on levels in the order of their feed prices. -/
def KeepsResolution (T : Type) [UnorderedMap T UInt64 Order] (adds : List FeedAdd) : Prop :=
  ∀ s ref ref' o o' k k', (replay T (adds.map FeedAdd.record)).resting s ref = some o →
    (replay T (adds.map FeedAdd.record)).resting s ref' = some o' →
    feedPrice adds s ref = some k → feedPrice adds s ref' = some k' →
    let levels := collapseBook ((replay T (adds.map FeedAdd.record)).book s)
    (levelOf levels o = levelOf levels o' ↔ k = k') ∧
      (levelOf levels o < levelOf levels o' ↔ k < k')

/-- No two feed prices of one side differ in their last digit alone. -/
def NoSubTickPrices (adds : List FeedAdd) : Prop :=
  ∀ s ref ref' k k', feedPrice adds s ref = some k → feedPrice adds s ref' = some k' →
    k / 10 = k' / 10 → k = k'

/-- Without the last digit, different prices compare as before. -/
theorem div_lt_div_iff_lt {k k' : UInt32} (h : k / 10 = k' / 10 → k = k') :
    k / 10 < k' / 10 ↔ k < k' := by
  have hk : (k / 10).toNat = k.toNat / 10 := UInt32.toNat_div k 10
  have hk' : (k' / 10).toNat = k'.toNat / 10 := UInt32.toNat_div k' 10
  simp only [← UInt32.toNat_inj, UInt32.lt_iff_toNat_lt, hk, hk'] at h ⊢
  omega

/-- **Books keep the feed's resolution, unless prices differ in the last digit alone.** For
every set of add records with wire prices, and the books built from them. -/
theorem keeps_resolution_iff (T : Type) [UnorderedMap T UInt64 Order] (adds : List FeedAdd) :
    KeepsResolution T adds ↔ NoSubTickPrices adds := by
  have hrests : ∀ {s ref k}, feedPrice adds s ref = some k → ∃ o,
      (replay T (adds.map FeedAdd.record)).resting s ref = some o ∧ o.price = k / 10 := by
    intro s ref k hk
    obtain ⟨a, ha, rfl⟩ := Option.map_eq_some_iff.mp hk
    refine ⟨a.record.order, ?_, ?_⟩
    · rw [resting_replay_adds, ha]
      rfl
    · rw [a.order_eq]
  constructor
  · intro hkeeps s ref ref' k k' hk hk' hsame
    obtain ⟨o, ho, hprice⟩ := hrests hk
    obtain ⟨o', ho', hprice'⟩ := hrests hk'
    refine (hkeeps s ref ref' o o' k k' ho ho' hk hk').1.mp ?_
    rw [(levelOf_iff ho ho').1, hprice, hprice', hsame]
  · intro hticks s ref ref' o o' k k' ho ho' hk hk'
    obtain ⟨o₁, ho₁, hprice⟩ := hrests hk
    obtain ⟨o₂, ho₂, hprice'⟩ := hrests hk'
    obtain rfl : o = o₁ := Option.some.inj (ho.symm.trans ho₁)
    obtain rfl : o' = o₂ := Option.some.inj (ho'.symm.trans ho₂)
    have hone := hticks s ref ref' k k' hk hk'
    have hlevels := levelOf_iff ho ho'
    rw [hprice, hprice'] at hlevels
    refine ⟨hlevels.1.trans ⟨hone, fun h => by rw [h]⟩, hlevels.2.trans ?_⟩
    exact div_lt_div_iff_lt hone

/-- Adds at 1.0001 and 1.0002. -/
def subTickAdds : List FeedAdd :=
  [⟨⟨1, 0, 10, Itch.priceValue 10001, 'A'.toUInt8, true⟩, 10001, by decide, rfl⟩,
    ⟨⟨2, 0, 20, Itch.priceValue 10002, 'A'.toUInt8, true⟩, 10002, by decide, rfl⟩]

/-- Both are on the level at 1.000. -/
theorem sub_tick_prices_merge :
    collapseBook (replay (AssocList UInt64 Order) (subTickAdds.map FeedAdd.record)).buyBook
        = [(1000, 30)] ∧
      ¬ KeepsResolution (AssocList UInt64 Order) subTickAdds := by
  refine ⟨by decide +kernel, fun hkeeps => ?_⟩
  have hlevels := hkeeps .buy 1 2 ⟨1000, 10⟩ ⟨1000, 20⟩ 10001 10002 (by decide +kernel)
    (by decide +kernel) rfl rfl
  exact absurd (hlevels.1.mp rfl) (by decide)

end TradingDesk.Exec
