import Mathlib.Data.List.MinMax
import TradingDesk.Core.Rounding
import TradingDesk.Exec.Collapse
import TradingDesk.Query.Main

/-!
# TradingDesk.Query.Display

**What a query prints** (`print_books` and `print_collapsed_books` of `nasdaq_exec.cpp`): the
selling side above the buying side, each from its highest price down, with a bar for the shares of
every line. Nothing is printed if a side is empty.

A line has what `fmt::print` is given. The prices and the lengths of the bars are computed in double
precision, which is the parameter `Rounding 53`.
-/

namespace TradingDesk.Query

open TradingDesk.Core
open TradingDesk.Exec
open UnorderedMap (find? toList)

/-! ### Bars -/

/-- `build_bar`. -/
def buildBar (R : Rounding 53) (maxLength : ℕ) (currentValue maxValue : UInt32) : List UInt8 :=
  if currentValue ≥ maxValue then List.replicate maxLength 35
  else
    let l := ⌊R.round (R.round (R.round maxLength * currentValue.toNat) / maxValue.toNat)⌋
    List.replicate l.toNat 35

/-- How long a bar has to be. -/
def barLength (maxLength : ℕ) (currentValue maxValue : UInt32) : ℕ :=
  if maxValue ≤ currentValue then maxLength else maxLength * currentValue.toNat / maxValue.toNat

/-- **Bars are exact.** The doubles do not change the length of a bar. -/
theorem buildBar_eq (R : Rounding 53) {maxLength : ℕ}
    (h : maxLength < 2 ^ 20) (currentValue maxValue : UInt32) :
    buildBar R maxLength currentValue maxValue
      = List.replicate (barLength maxLength currentValue maxValue) 35 := by
  rw [buildBar, barLength]
  by_cases hge : currentValue ≥ maxValue
  · rw [if_pos hge, if_pos hge]
  · rw [if_neg hge, if_neg hge]
    have hlt : currentValue.toNat < maxValue.toNat :=
      UInt32.lt_iff_toNat_lt.mp (UInt32.not_le.mp hge)
    have hmax := maxValue.toNat_lt
    have hmul : maxLength * currentValue.toNat < 2 ^ 20 * 2 ^ 32 := by
      refine Nat.mul_lt_mul'' h ?_
      omega
    have hquotient : maxLength * currentValue.toNat / maxValue.toNat ≤ maxLength := by
      refine Nat.div_le_of_le_mul ?_
      rw [mul_comm]
      exact Nat.mul_le_mul_right _ hlt.le
    have hproduct : R.round (R.round maxLength * currentValue.toNat)
        = ((maxLength * currentValue.toNat : ℕ) : ℚ) := by
      rw [R.round_natCast (by omega), ← Nat.cast_mul, R.round_natCast (by omega)]
    have hfloor := @Rounding.floor_round_div 53 R (maxLength * currentValue.toNat) maxValue.toNat 32
      (by omega) hmax.le (by decide) (by omega)
    simp only [hproduct, hfloor, Int.toNat_natCast]

/-! ### Lines -/

/-- What is printed of an order, or of a level. -/
structure Line where
  /-- The price in USD. -/
  usd : ℚ
  shares : UInt32
  reference : Option UInt64
  bar : List UInt8
  deriving DecidableEq

/-- The lines of both sides, from the top. -/
structure Display where
  selling : List Line
  buying : List Line
  deriving DecidableEq

/-- The lines of a side. -/
def Display.side (d : Display) : Side → List Line
  | .buy => d.buying
  | .sell => d.selling

/-- A price as a double, in USD. -/
def usd (R : Rounding 53) (price : UInt32) : ℚ := R.round (price.toNat / 1000)

section

variable {α : Type}

/-- The line of an entry, beside a bar for its part of the largest one. -/
def line (R : Rounding 53) (price shares : α → UInt32)
    (reference : α → Option UInt64) (theMax : UInt32) (e : α) :
    Line :=
  ⟨usd R (price e), shares e, reference e, buildBar R 20 (shares e) theMax⟩

/-- What `print_books` and `print_collapsed_books` have in common. -/
def display (R : Rounding 53) (price shares : α → UInt32) (reference : α → Option UInt64)
    (buyingBook sellingBook : List α) : Option Display :=
  match sellingBook.argmax fun e => (shares e).toNat,
    buyingBook.argmax fun e => (shares e).toNat with
  | some itMaxSell, some itMaxBuy =>
    let theMax := if shares itMaxSell < shares itMaxBuy then shares itMaxBuy else shares itMaxSell
    some ⟨sellingBook.reverse.map (line R price shares reference theMax),
      buyingBook.reverse.map (line R price shares reference theMax)⟩
  | _, _ => none

end

/-- `print_books`. -/
def printBooks (R : Rounding 53) (buyingBook sellingBook : OrderBook) : Option Display :=
  display R (fun e : BookEntry => e.1.price) (fun e => e.1.shares)
    (fun e => some e.2) buyingBook sellingBook

/-- All bars are on one scale: the largest line has a full bar, and the others have their part of
it. -/
def OneScale (lines : List Line) : Prop :=
  ∃ theMax, (∃ l ∈ lines, l.shares = theMax) ∧
    ∀ l ∈ lines, l.shares ≤ theMax ∧ l.bar = List.replicate (barLength 20 l.shares theMax) 35

section

variable {α : Type} {R : Rounding 53} {price shares : α → UInt32} {reference : α → Option UInt64}
variable {buyingBook sellingBook : List α}

theorem display_eq_none_iff :
    display R price shares reference buyingBook sellingBook = none ↔
      buyingBook = [] ∨ sellingBook = [] := by
  rw [display]
  constructor
  · intro h
    by_contra hne
    obtain ⟨hbuying, hselling⟩ := not_or.mp hne
    obtain ⟨itMaxSell, hsell⟩ : ∃ e, (sellingBook.argmax fun e => (shares e).toNat) = some e :=
      Option.ne_none_iff_exists'.mp (mt List.argmax_eq_none.mp hselling)
    obtain ⟨itMaxBuy, hbuy⟩ : ∃ e, (buyingBook.argmax fun e => (shares e).toNat) = some e :=
      Option.ne_none_iff_exists'.mp (mt List.argmax_eq_none.mp hbuying)
    simp [hsell, hbuy] at h
  · rintro (rfl | rfl)
    · cases sellingBook.argmax fun e => (shares e).toNat <;> rfl
    · rfl

/-- What is printed, with the largest number of shares of both sides. -/
theorem display_eq_some {d : Display}
    (h : display R price shares reference buyingBook sellingBook = some d) :
    ∃ theMax, (∃ e ∈ sellingBook ++ buyingBook, shares e = theMax) ∧
      (∀ e ∈ sellingBook ++ buyingBook, shares e ≤ theMax) ∧
      d.selling = sellingBook.reverse.map (line R price shares reference theMax) ∧
      d.buying = buyingBook.reverse.map (line R price shares reference theMax) := by
  rw [display] at h
  split at h
  · rename_i itMaxSell itMaxBuy hsell hbuy
    cases h
    have hsells : ∀ e ∈ sellingBook, (shares e).toNat ≤ (shares itMaxSell).toNat := fun e he =>
      List.le_of_mem_argmax (f := fun e => (shares e).toNat) he hsell
    have hbuys : ∀ e ∈ buyingBook, (shares e).toNat ≤ (shares itMaxBuy).toNat := fun e he =>
      List.le_of_mem_argmax (f := fun e => (shares e).toNat) he hbuy
    refine ⟨_, ?_, fun e he => ?_, rfl, rfl⟩
    · split
      · exact ⟨itMaxBuy, List.mem_append_right _ (List.argmax_mem hbuy), rfl⟩
      · exact ⟨itMaxSell, List.mem_append_left _ (List.argmax_mem hsell), rfl⟩
    · rw [UInt32.le_iff_toNat_le]
      split
      · rename_i hlt
        have hle := UInt32.lt_iff_toNat_lt.mp hlt
        rcases List.mem_append.mp he with he | he
        · exact (hsells e he).trans hle.le
        · exact hbuys e he
      · rename_i hge
        have hle := UInt32.le_iff_toNat_le.mp (UInt32.not_lt.mp hge)
        rcases List.mem_append.mp he with he | he
        · exact hsells e he
        · exact (hbuys e he).trans hle
  · cases h

theorem oneScale_display {d : Display}
    (h : display R price shares reference buyingBook sellingBook = some d) :
    OneScale (d.selling ++ d.buying) := by
  obtain ⟨theMax, ⟨e, he, hlargest⟩, hall, hselling, hbuying⟩ := display_eq_some h
  have hlines : d.selling ++ d.buying
      = (sellingBook.reverse ++ buyingBook.reverse).map (line R price shares reference theMax) := by
    rw [hselling, hbuying, List.map_append]
  have hmem (e : α) : e ∈ sellingBook.reverse ++ buyingBook.reverse ↔
      e ∈ sellingBook ++ buyingBook := by
    simp
  rw [hlines]
  refine ⟨theMax, ⟨_, List.mem_map_of_mem ((hmem e).mpr he), hlargest⟩, fun l hl => ?_⟩
  obtain ⟨e, he, rfl⟩ := List.mem_map.mp hl
  exact ⟨hall e ((hmem e).mp he), buildBar_eq R (by decide) _ _⟩

end

/-! ### Prices -/

theorem usd_le {R : Rounding 53} {p q : UInt32} (h : p ≤ q) : usd R p ≤ usd R q := by
  refine R.mono ?_
  have hle : (p.toNat : ℚ) ≤ q.toNat := by exact_mod_cast UInt32.le_iff_toNat_le.mp h
  linarith

section

variable {T : Type} [UnorderedMap T UInt64 Order]

theorem makeBook_eq_nil_iff {m : T} : makeBook m = [] ↔ ∀ ref, find? m ref = none := by
  constructor
  · intro h ref
    by_contra hne
    obtain ⟨o, ho⟩ := Option.ne_none_iff_exists'.mp hne
    exact absurd (mem_makeBook.mpr ho) (h ▸ List.not_mem_nil)
  · intro h
    refine List.eq_nil_iff_forall_not_mem.mpr fun e he => ?_
    exact absurd (mem_makeBook.mp he) (by simp [h])

/-- Nothing is printed if nothing rests on a side. -/
theorem printBooks_eq_none_iff (R : Rounding 53) (e : ExecutionEngine T) :
    printBooks R e.buyBook e.sellBook = none ↔ ∃ s, ∀ ref, find? (e.side s) ref = none := by
  rw [printBooks, display_eq_none_iff, ExecutionEngine.buyBook, ExecutionEngine.sellBook,
    makeBook_eq_nil_iff, makeBook_eq_nil_iff]
  exact ⟨fun h => h.elim (fun h => ⟨.buy, h⟩) fun h => ⟨.sell, h⟩, fun ⟨s, h⟩ => by
    cases s with
    | buy => exact Or.inl h
    | sell => exact Or.inr h⟩

/-- The lines of both sides, with one number of shares that the bars are drawn for. -/
theorem printBooks_side {R : Rounding 53} {e : ExecutionEngine T} {d : Display}
    (h : printBooks R e.buyBook e.sellBook = some d) :
    ∃ theMax, ∀ s, d.side s = (e.book s).reverse.map
      (line R (fun e : BookEntry => e.1.price) (fun e => e.1.shares)
        (fun e => some e.2) theMax) := by
  obtain ⟨theMax, -, -, hselling, hbuying⟩ := display_eq_some h
  refine ⟨theMax, fun s => ?_⟩
  cases s with
  | buy => exact hbuying
  | sell => exact hselling

/-- **A display shows what rests.** For every engine, and however doubles are rounded: nothing is
printed exactly if nothing rests on a side. Otherwise every order at rest has one line on its side,
with its reference, its shares and its price; no line is above one of a higher price; and all bars
are on one scale. -/
theorem display_shows_orders_at_rest (R : Rounding 53) (e : ExecutionEngine T) :
    (printBooks R e.buyBook e.sellBook = none ↔ ∃ s, ∀ ref, find? (e.side s) ref = none) ∧
    ∀ d, printBooks R e.buyBook e.sellBook = some d →
      (∀ s, ((d.side s).map fun l => (l.reference, l.shares, l.usd)).Perm
        ((toList (e.side s)).map fun o => (some o.1, o.2.shares, usd R o.2.price))) ∧
      (∀ s, (d.side s).Pairwise fun l l' => l'.usd ≤ l.usd) ∧
      OneScale (d.selling ++ d.buying) := by
  refine ⟨printBooks_eq_none_iff R e, fun d hd => ?_⟩
  obtain ⟨theMax, hsides⟩ := printBooks_side hd
  refine ⟨fun s => ?_, fun s => ?_, oneScale_display hd⟩
  · rw [hsides s, e.book_eq, List.map_map]
    refine ((List.reverse_perm _).map _).trans (((makeBook_perm (e.side s)).map _).trans ?_)
    rw [List.map_map]
    exact List.Perm.refl _
  · rw [hsides s, e.book_eq]
    refine List.pairwise_map.mpr (List.pairwise_reverse.mpr ?_)
    exact (makeBook_sorted (e.side s)).imp fun hle => usd_le hle

end

end TradingDesk.Query
