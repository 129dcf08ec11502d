import Mathlib.Algebra.Order.Field.Rat
import Mathlib.Tactic.NormNum
import TradingDesk.Core.Cells

/-!
# TradingDesk.Simulator.QuoteGenerator

**Prices by midpoint displacement** (`quote_generator.hpp`). A vector gets its first and
its last price, and every range of it a price at its middle, around the mean of its ends;
then the two halves are filled, which share the middle. Prices are exact rationals. What
the distribution yields is a parameter; a failed assert, or an access out of range, is
`none`.

The halves are not disjoint from the ends: the middle of a range of two cells is its last
cell, which is overwritten.
-/

namespace TradingDesk.Simulator

open TradingDesk.Core

/-! ### Filling a range -/

/-- A vector behind `fill_values`: its cells, the number of draws so far, and the pair that
is returned. -/
structure Filled where
  values : List ℚ
  drawn : ℕ
  min : ℚ
  max : ℚ
  deriving DecidableEq

/-- The `std::tie` behind a recursive call, and the two updates that follow it. -/
def Filled.extend (f g : Filled) : Filled :=
  ⟨g.values, g.drawn, Min.min f.min g.min, Max.max f.max g.max⟩

/-- `new_value`. -/
def newValue (front back draw : ℚ) (generation : ℕ) : ℚ :=
  max (1 / 100) ((front + back) / 2 + draw / generation)

/-- `*middle = new_value`, and the minimum and the maximum so far. -/
def displace (cells : List ℚ) (drawn middle : ℕ) (front back value : ℚ) : Filled :=
  ⟨cells.set middle value, drawn + 1, min (min front back) value, max (max front back) value⟩

/-- `fill_values` on the cells from `first` up to `last`. The distance is narrowed to 32
bits. -/
def fillValues (draws : ℕ → ℚ) (cells : List ℚ) (drawn first last generation : ℕ) :
    Option Filled :=
  let dst := (last - first) % 2 ^ 32
  if hdst : dst < 2 then none
  else do
    let front ← cells[first]?
    guard (0 < front)
    let back ← cells[last - 1]?
    guard (0 < back)
    let middle := first + max (dst / 2) 1
    let f := displace cells drawn middle front back (newValue front back (draws drawn) generation)
    let f ←
      if hleft : 2 ≤ middle - first then
        (fillValues draws f.values f.drawn first (middle + 1) (generation + 1)).map f.extend
      else some f
    if hright : 2 ≤ last - middle then
      (fillValues draws f.values f.drawn middle last (generation + 1)).map f.extend
    else some f
termination_by last - first
decreasing_by
  all_goals omega

/-! ### What it does to a range -/

theorem newValue_pos (front back draw : ℚ) (generation : ℕ) :
    0 < newValue front back draw generation :=
  lt_of_lt_of_le (by norm_num) (le_max_left _ _)

/-- One call on a range of at least two cells with positive ends. -/
theorem fillValues_eq {draws : ℕ → ℚ} {cells : List ℚ} {drawn first last generation : ℕ}
    {front back : ℚ} (h2 : first + 2 ≤ last) (h32 : last - first < 2 ^ 32)
    (hfront : cells[first]? = some front) (hfront0 : 0 < front)
    (hback : cells[last - 1]? = some back) (hback0 : 0 < back) {middle : ℕ}
    (hmiddle : middle = first + (last - first) / 2) {f : Filled}
    (hf : f = displace cells drawn middle front back
      (newValue front back (draws drawn) generation)) :
    fillValues draws cells drawn first last generation
      = (if 2 ≤ middle - first then
          (fillValues draws f.values f.drawn first (middle + 1) (generation + 1)).map f.extend
        else some f).bind fun f =>
          if 2 ≤ last - middle then
            (fillValues draws f.values f.drawn middle last (generation + 1)).map f.extend
          else some f := by
  have hdst : (last - first) % 2 ^ 32 = last - first := Nat.mod_eq_of_lt h32
  have hhalf : max ((last - first) / 2) 1 = (last - first) / 2 := max_eq_left (by omega)
  rw [fillValues]
  simp only [hdst, hhalf, ← hmiddle, hfront, hback, Option.bind_eq_bind, Option.bind_some, guard,
    hfront0, hback0, if_true, Option.pure_def, ← hf, dite_eq_ite]
  rw [if_neg (by omega)]
  by_cases hleft : 2 ≤ middle - first
  · rw [if_pos hleft, if_pos hleft]
  · rw [if_neg hleft, if_neg hleft, Option.bind_some]

/-- What `fill_values` leaves behind: the cells outside of the range and its first cell are
as they were, and all cells of the range are between the returned bounds, which are
positive. -/
structure IsFilling (cells : List ℚ) (first last : ℕ) (f : Filled) : Prop where
  agree : AgreeOutside cells f.values first last
  front : f.values[first]? = cells[first]?
  pos : 0 < f.min
  between : Between f.values first last f.min f.max

namespace IsFilling

variable {cells : List ℚ} {first middle last : ℕ} {f g : Filled}

/-- The second half, behind the first one: they share the middle, which the second half may
overwrite again. -/
theorem append (h : IsFilling cells first (middle + 1) f) (hg : IsFilling f.values middle last g)
    (hfirst : first < middle) (hlast : middle < last) :
    IsFilling cells first last (f.extend g) where
  agree := (h.agree.mono le_rfl hlast).trans (hg.agree.mono hfirst.le le_rfl)
  front := (hg.agree.getElem?_eq first (Or.inl hfirst)).trans h.front
  pos := lt_min h.pos hg.pos
  between := by
    have hleft := ((h.between.of_le le_rfl (Nat.le_succ middle)).before hg.agree le_rfl).weaken
      (min_le_left f.min g.min) (le_max_left f.max g.max)
    exact hleft.append (hg.between.weaken (min_le_right f.min g.min) (le_max_right f.max g.max))

/-- The updates behind a call keep the smaller minimum and the larger maximum. -/
theorem extend (hf : 0 < f.min) (h : IsFilling cells first last g) :
    IsFilling cells first last (f.extend g) :=
  ⟨h.agree, h.front, lt_min hf h.pos,
    h.between.weaken (min_le_right f.min g.min) (le_max_right f.max g.max)⟩

/-- Writing a cell behind the first one belongs to filling the range. -/
theorem of_set {x : ℚ} (h : IsFilling (cells.set middle x) first last f) (hfirst : first < middle)
    (hlast : middle < last) : IsFilling cells first last f :=
  ⟨(AgreeOutside.set ⟨hfirst.le, hlast⟩ x).trans h.agree,
    h.front.trans (List.getElem?_set_ne (by omega)), h.pos, h.between⟩

end IsFilling

/-- `fill_values` fills every range of up to `n` cells that has positive ends. -/
def FillsRanges (draws : ℕ → ℚ) (n : ℕ) : Prop :=
  ∀ ⦃cells : List ℚ⦄ ⦃first last : ℕ⦄ ⦃front back : ℚ⦄ (drawn generation : ℕ),
    last - first ≤ n → first + 2 ≤ last → cells[first]? = some front → 0 < front →
    cells[last - 1]? = some back → 0 < back →
    ∃ f, fillValues draws cells drawn first last generation = some f ∧ IsFilling cells first last f

/-- The first half, if it has cells of its own between its ends. -/
theorem FillsRanges.firstHalf {draws : ℕ → ℚ} {n : ℕ} (ih : FillsRanges draws n) {first middle : ℕ}
    {f : Filled} {front value : ℚ} (hn : 2 ≤ middle - first → middle + 1 - first ≤ n)
    (hfirst : first < middle) (hfront : f.values[first]? = some front)
    (hvalue : f.values[middle]? = some value) (hpos : 0 < f.min)
    (hfront_mem : f.min ≤ front ∧ front ≤ f.max) (hvalue_mem : f.min ≤ value ∧ value ≤ f.max)
    (generation : ℕ) :
    ∃ g, (if 2 ≤ middle - first then
        (fillValues draws f.values f.drawn first (middle + 1) (generation + 1)).map f.extend
      else some f) = some g ∧ IsFilling f.values first (middle + 1) g := by
  by_cases hleft : 2 ≤ middle - first
  · obtain ⟨g, hcall, hg⟩ := ih f.drawn (generation + 1) (hn hleft) (by omega) hfront
      (hpos.trans_le hfront_mem.1) (by rwa [Nat.add_sub_cancel]) (hpos.trans_le hvalue_mem.1)
    rw [if_pos hleft, hcall]
    exact ⟨_, rfl, hg.extend hpos⟩
  · -- the two ends are all there is
    obtain rfl : middle = first + 1 := by omega
    rw [if_neg hleft]
    exact ⟨f, rfl, ⟨rfl, fun _ _ => rfl⟩, rfl, hpos,
      (Between.single hfront hfront_mem.1 hfront_mem.2).append
        (Between.single hvalue hvalue_mem.1 hvalue_mem.2)⟩

/-- The second half, if it has cells behind the middle. -/
theorem FillsRanges.secondHalf {draws : ℕ → ℚ} {n : ℕ} (ih : FillsRanges draws n)
    {cells : List ℚ} {first middle last : ℕ} {f : Filled} {back : ℚ} (hn : last - middle ≤ n)
    (h : IsFilling cells first (middle + 1) f) (hfirst : first < middle) (hlast : middle < last)
    (hback : middle + 1 < last → f.values[last - 1]? = some back) (hback0 : 0 < back)
    (generation : ℕ) :
    ∃ g, (if 2 ≤ last - middle then
        (fillValues draws f.values f.drawn middle last (generation + 1)).map f.extend
      else some f) = some g ∧ IsFilling cells first last g := by
  by_cases hright : 2 ≤ last - middle
  · obtain ⟨x, hx, hlo, -⟩ := h.between middle hfirst.le (Nat.lt_succ_self middle)
    obtain ⟨g, hcall, hg⟩ := ih f.drawn (generation + 1) hn (by omega) hx (h.pos.trans_le hlo)
      (hback (by omega)) hback0
    rw [if_pos hright, hcall]
    exact ⟨_, rfl, h.append hg hfirst hlast⟩
  · obtain rfl : last = middle + 1 := by omega
    rw [if_neg hright]
    exact ⟨f, rfl, h⟩

/-- **Run lemma.** On a range of at least two cells with positive ends, the recursion comes to
an end, and no assert fails on the way. The induction is on the number of cells; the ends of
the first half are the front and the new middle, those of the second half are whatever the
first one has made of the middle, and the back. -/
theorem fillsRanges (draws : ℕ → ℚ) {n : ℕ} (hn : n < 2 ^ 32) : FillsRanges draws n := by
  induction n with
  | zero =>
      intro cells first last front back drawn generation hle h2
      omega
  | succ n ih =>
      intro cells first last front back drawn generation hle h2 hfront hfront0 hback hback0
      have ih := ih (by omega)
      obtain ⟨middle, hmiddle⟩ : ∃ middle, middle = first + (last - first) / 2 := ⟨_, rfl⟩
      obtain ⟨value, hvalue⟩ : ∃ value, value = newValue front back (draws drawn) generation :=
        ⟨_, rfl⟩
      have hvalue0 : 0 < value := hvalue ▸ newValue_pos _ _ _ _
      have hlen : last - 1 < cells.length := (List.getElem?_eq_some_iff.mp hback).1
      have hcall := fillValues_eq h2 (by omega) hfront hfront0 hback hback0 hmiddle
        (f := displace cells drawn middle front back value) (by rw [hvalue])
      obtain ⟨g, hleft, hg⟩ := ih.firstHalf (f := displace cells drawn middle front back value)
        (by omega) (by omega) ((List.getElem?_set_ne (by omega)).trans hfront)
        (List.getElem?_set_self (by omega)) (lt_min (lt_min hfront0 hback0) hvalue0)
        ⟨(min_le_left _ _).trans (min_le_left _ _), (le_max_left _ _).trans (le_max_left _ _)⟩
        ⟨min_le_right _ _, le_max_right _ _⟩ generation
      have hkept : middle + 1 < last → g.values[last - 1]? = some back := by
        intro hlast
        rw [hg.agree.getElem?_eq _ (Or.inr (by omega))]
        exact (List.getElem?_set_ne (by omega)).trans hback
      obtain ⟨f, hright, hf⟩ := ih.secondHalf (by omega) hg (by omega) (by omega) hkept hback0
        generation
      rw [hcall, hleft, Option.bind_some, hright]
      exact ⟨f, rfl, hf.of_set (by omega) (by omega)⟩

/-! ### Quotes -/

/-- What `uniform_real_distribution{-amplitude / 2.0, amplitude / 2.0}` yields, draw after
draw. -/
structure Draws (amplitude : ℚ) where
  value : ℕ → ℚ
  within (n : ℕ) : -amplitude / 2 ≤ value n ∧ value n ≤ amplitude / 2

/-- `quote_generator`, with the number of draws so far. -/
structure QuoteGenerator where
  amplitude : ℚ
  draws : Draws amplitude
  drawn : ℕ
  last : ℚ

/-- The constructor. -/
def QuoteGenerator.make (initial amplitude : ℚ) (draws : Draws amplitude) : QuoteGenerator :=
  ⟨amplitude, draws, 0, initial⟩

/-- `quote::values`. -/
structure Values where
  volume : ℚ
  «open» : ℚ
  high : ℚ
  low : ℚ
  close : ℚ
  deriving DecidableEq

namespace QuoteGenerator

/-- `std::vector<double> values(volume)`, with its first and its last price. -/
def ends (g : QuoteGenerator) (volume : UInt32) : List ℚ :=
  ((List.replicate volume.toNat 0).set 0 g.last).set (volume.toNat - 1)
    (max (1 / 10000) (g.last + g.draws.value g.drawn * 2))

/-- The prices of `operator()`, and their lowest and highest. The ends of an empty vector are
out of range. -/
def prices (g : QuoteGenerator) (volume : UInt32) : Option Filled := do
  guard (0 < volume.toNat)
  fillValues g.draws.value (g.ends volume) (g.drawn + 1) 0 volume.toNat 1

/-- `operator()`. -/
def call (g : QuoteGenerator) (volume : UInt32) : Option (Values × QuoteGenerator) := do
  let f ← g.prices volume
  guard (f.min ≤ f.max)
  let «open» ← f.values.head?
  let close ← f.values.getLast?
  return (⟨f.values.length, «open», f.max, f.min, close⟩, { g with drawn := f.drawn })

variable {g : QuoteGenerator} {volume : UInt32}

@[simp] theorem length_ends (g : QuoteGenerator) (volume : UInt32) :
    (g.ends volume).length = volume.toNat := by
  simp [ends]

theorem ends_front (hvolume : 2 ≤ volume.toNat) : (g.ends volume)[0]? = some g.last := by
  rw [ends, List.getElem?_set_ne (by omega), List.getElem?_set_self (by simp; omega)]

/-- The price that is drawn for the last cell is positive. -/
theorem ends_back (hvolume : 2 ≤ volume.toNat) :
    ∃ back, back = max (1 / 10000) (g.last + g.draws.value g.drawn * 2) ∧ 0 < back ∧
      (g.ends volume)[volume.toNat - 1]? = some back :=
  ⟨_, rfl, lt_of_lt_of_le (by norm_num) (le_max_left _ _), List.getElem?_set_self (by simp; omega)⟩

/-- **The prices of a quote**: as many as the volume, from a positive lowest to the highest. -/
theorem prices_isFilling (hvolume : 2 ≤ volume.toNat) (hlast : 0 < g.last) :
    ∃ f, g.prices volume = some f ∧ IsFilling (g.ends volume) 0 volume.toNat f := by
  obtain ⟨back, -, hback0, hback⟩ := g.ends_back hvolume
  rw [prices, guard, if_pos (by omega)]
  exact fillsRanges g.draws.value volume.toNat_lt (g.drawn + 1) 1 le_rfl (by omega)
    (ends_front hvolume) hlast hback hback0

end QuoteGenerator

/-! ### Bars -/

/-- A well-formed bar: positive prices, with the lowest and the highest where they belong. -/
structure IsBar (v : Values) : Prop where
  low_pos : 0 < v.low
  low_le_open : v.low ≤ v.open
  open_le_high : v.open ≤ v.high
  low_le_close : v.low ≤ v.close
  close_le_high : v.close ≤ v.high

/-- The prices of a filling are positive. -/
theorem IsFilling.values_pos {cells : List ℚ} {f : Filled}
    (h : IsFilling cells 0 cells.length f) : ∀ x ∈ f.values, 0 < x := by
  intro x hx
  obtain ⟨i, hi⟩ := List.mem_iff_getElem?.mp hx
  obtain ⟨hlt, -⟩ := List.getElem?_eq_some_iff.mp hi
  obtain ⟨y, hy, hlo, -⟩ := h.between i (Nat.zero_le i) (by rw [← h.agree.length_eq]; exact hlt)
  obtain rfl : x = y := Option.some.inj (hi.symm.trans hy)
  exact h.pos.trans_le hlo

/-- **A quote is a bar.** -/
theorem QuoteGenerator.call_isBar {g : QuoteGenerator} {volume : UInt32} {f : Filled}
    (hvolume : 2 ≤ volume.toNat) (hprices : g.prices volume = some f)
    (h : IsFilling (g.ends volume) 0 volume.toNat f) :
    ∃ v, g.call volume = some (v, { g with drawn := f.drawn }) ∧ IsBar v := by
  have hlen : f.values.length = volume.toNat := by rw [h.agree.length_eq, length_ends]
  obtain ⟨x, hx, hlox, hxhi⟩ := h.between 0 le_rfl (by omega)
  obtain ⟨y, hy, hloy, hyhi⟩ := h.between (volume.toNat - 1) (Nat.zero_le _) (by omega)
  refine ⟨⟨f.values.length, x, f.max, f.min, y⟩, ?_, h.pos, hlox, hxhi, hloy, hyhi⟩
  simp only [call, hprices, guard, if_pos (hlox.trans hxhi), List.head?_eq_getElem?,
    List.getLast?_eq_getElem?, hlen, hx, hy, Option.bind_eq_bind, Option.bind_some, Option.pure_def]

end TradingDesk.Simulator
