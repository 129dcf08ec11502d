import Mathlib.Data.List.TakeWhile
import TradingDesk.Core.Grouping
import TradingDesk.Exec.Book

/-!
# TradingDesk.Exec.Collapse

**Collapsed books.** The loop of `collapse_book` compares each order with the level it
has open, and opens another behind it where the price changes. In a sorted book that
groups the orders by price: `levelsOf` are the runs of the book with their shares, and
`collapseBook_eq` is the loop, with the orders it has left as the induction.
-/

namespace TradingDesk.Exec

open TradingDesk.Core

/-! ### Levels -/

/-- The price of a book entry. -/
def BookEntry.price (e : BookEntry) : UInt32 := e.1.price

/-- The shares of some orders, all together. -/
def sharesOf (orders : List BookEntry) : Nat := (orders.map fun e => e.1.shares.toNat).sum

@[simp] theorem sharesOf_nil : sharesOf [] = 0 := rfl

@[simp] theorem sharesOf_cons (e : BookEntry) (orders : List BookEntry) :
    sharesOf (e :: orders) = e.1.shares.toNat + sharesOf orders := rfl

/-- The runs of a book, each with its shares in 32-bit arithmetic. -/
def levelsOf (orders : OrderBook) : CollapsedBook :=
  (runs BookEntry.price orders).map fun run => (run.1, UInt32.ofNat (sharesOf run.2))

/-- A level in front of others: it is one with the first of them if that has its price. -/
def CollapsedBook.push (level : UInt32 × UInt32) : CollapsedBook → CollapsedBook
  | [] => [level]
  | next :: levels =>
    if level.1 = next.1 then (level.1, level.2 + next.2) :: levels else level :: next :: levels

theorem levelsOf_cons (e : BookEntry) (orders : OrderBook) :
    levelsOf (e :: orders) = (levelsOf orders).push (e.1.price, e.1.shares) := by
  rw [levelsOf, levelsOf, runs]
  cases runs BookEntry.price orders with
  | nil => simp [consRun, CollapsedBook.push, BookEntry.price, sharesOf]
  | cons run rest =>
      obtain ⟨k, g⟩ := run
      rw [consRun, List.map_cons, CollapsedBook.push]
      by_cases hk : e.1.price = k
      · have hprice : e.price = k := hk
        simp [hprice, hk, UInt32.ofNat_add]
      · simp [hk, BookEntry.price]

/-- A level that two orders in a row fall on. -/
theorem CollapsedBook.push_push_self (p n k : UInt32) (levels : CollapsedBook) :
    (levels.push (p, k)).push (p, n) = levels.push (p, n + k) := by
  cases levels with
  | nil => simp [push]
  | cons next levels =>
      by_cases hp : p = next.1
      · simp [push, hp, UInt32.add_assoc]
      · simp [push, hp]

theorem CollapsedBook.push_push_of_ne {p q : UInt32} (h : p ≠ q) (n k : UInt32)
    (levels : CollapsedBook) :
    (levels.push (q, k)).push (p, n) = (p, n) :: levels.push (q, k) := by
  cases levels with
  | nil => simp [push, h]
  | cons next levels =>
      by_cases hq : q = next.1
      · simp [push, ← hq, h]
      · simp [push, hq, h]

/-! ### The loop -/

/-- A price above all levels opens one at the end. -/
theorem CollapsedBook.emplace_of_lt {res : CollapsedBook} {price : UInt32}
    (h : ∀ level ∈ res, level.1 < price) (shares : UInt32) :
    res.emplace price shares = (res ++ [(price, shares)], res.length) := by
  have hall : res.takeWhile (fun level => decide (level.1 < price)) = res :=
    List.takeWhile_eq_self_iff.mpr fun level hlevel => decide_eq_true (h level hlevel)
  rw [emplace, hall, List.getElem?_eq_none le_rfl]

/-- **The loop**, with `level` open behind the levels that are done. -/
theorem foldl_collapseOrder {done : CollapsedBook} {level : UInt32 × UInt32} {orders : OrderBook}
    (hdone : ∀ l ∈ done, l.1 < level.1) (hlevel : ∀ e ∈ orders, level.1 ≤ e.price)
    (hsorted : orders.Pairwise fun a b => a.price ≤ b.price) :
    (orders.foldl collapseOrder (done ++ [level], done.length)).1
      = done ++ (levelsOf orders).push level := by
  induction orders generalizing done level with
  | nil => rfl
  | cons e orders ih =>
      obtain ⟨hnext, htail⟩ := List.pairwise_cons.mp hsorted
      obtain ⟨hle, -⟩ := List.forall_mem_cons.mp hlevel
      obtain ⟨p, n⟩ := level
      have hopen : (done ++ [(p, n)])[done.length]? = some (p, n) := by simp
      rw [List.foldl_cons, levelsOf_cons]
      by_cases hp : p = e.1.price
      · -- the order falls on the open level
        have hstep : collapseOrder (done ++ [(p, n)], done.length) e
            = (done ++ [(p, n + e.1.shares)], done.length) := by
          simp [collapseOrder, hp]
        rw [hstep, @ih done (p, n + e.1.shares) hdone (fun a ha => hp ▸ hnext a ha) htail, ← hp,
          CollapsedBook.push_push_self]
      · -- it opens the next one
        have hlt : p < e.1.price := Std.lt_of_le_of_ne hle hp
        have hall : ∀ l ∈ done ++ [(p, n)], l.1 < e.1.price := by
          intro l hl
          rcases List.mem_append.mp hl with hl | hl
          · exact Std.lt_trans (hdone l hl) hlt
          · rw [List.mem_singleton.mp hl]
            exact hlt
        have hstep : collapseOrder (done ++ [(p, n)], done.length) e
            = ((done ++ [(p, n)]) ++ [(e.1.price, e.1.shares)], (done ++ [(p, n)]).length) := by
          rw [← CollapsedBook.emplace_of_lt hall, collapseOrder, hopen]
          exact if_neg hp
        rw [hstep, ih hall hnext htail, CollapsedBook.push_push_of_ne hp, List.append_assoc]
        rfl

/-- **Collapsing groups by price**, on a book that is sorted by price. -/
theorem collapseBook_eq {orders : OrderBook}
    (hsorted : orders.Pairwise fun a b => a.price ≤ b.price) :
    collapseBook orders = levelsOf orders := by
  cases orders with
  | nil => rfl
  | cons e orders =>
      obtain ⟨hnext, htail⟩ := List.pairwise_cons.mp hsorted
      rw [levelsOf_cons]
      exact @foldl_collapseOrder [] _ _ nofun hnext htail

/-- A list sorted by `order::operator<` is sorted by price. -/
theorem price_le_of_not_lt {a b : BookEntry} (h : b.1.lt a.1 = false) : a.price ≤ b.price := by
  simp only [Order.lt, Bool.or_eq_false_iff, decide_eq_false_iff_not] at h
  exact UInt32.not_lt.mp h.1

theorem makeBook_sorted {T : Type} [UnorderedMap T UInt64 Order] (m : T) :
    (makeBook m).Pairwise fun a b => a.price ≤ b.price := by
  refine (pairwise_makeBook m).imp ?_
  intro a b hlt
  rcases hlt with hlt | ⟨heq, -⟩
  · exact Std.le_of_lt hlt
  · exact Std.le_of_eq heq

/-- **Collapsing is grouping by price.** For every book that is sorted by
`order::operator<`: the prices of the levels increase, and are those of the orders; a
level has the shares of all the orders of its price, modulo 2^32; and the orders of the
levels, one level behind the other, are the book, so each is counted in one level. -/
theorem collapse_groups_by_price {orders : OrderBook}
    (hsorted : orders.Pairwise fun a b => b.1.lt a.1 = false) :
    (collapseBook orders).Pairwise (fun a b => a.1 < b.1) ∧
      (∀ p, p ∈ (collapseBook orders).map Prod.fst ↔ ∃ e ∈ orders, e.1.price = p) ∧
      (∀ level ∈ collapseBook orders, level.2.toNat
        = sharesOf (orders.filter fun e => decide (e.1.price = level.1)) % 2 ^ 32) ∧
      ((collapseBook orders).flatMap fun level =>
        orders.filter fun e => decide (e.1.price = level.1)) = orders := by
  have hprices : orders.Pairwise fun a b => a.price ≤ b.price := hsorted.imp price_le_of_not_lt
  have hrun : ∀ run ∈ runs BookEntry.price orders,
      run.2 = orders.filter fun e => decide (e.1.price = run.1) :=
    fun run hrun => eq_filter_of_mem_runs hprices hrun
  rw [collapseBook_eq hprices, levelsOf]
  refine ⟨List.pairwise_map.mpr (pairwise_runs hprices), ?_, ?_, ?_⟩
  · intro p
    rw [List.map_map]
    exact mem_keys_runs
  · intro level hlevel
    obtain ⟨run, hmem, rfl⟩ := List.mem_map.mp hlevel
    rw [← hrun run hmem]
    exact UInt32.toNat_ofNat'
  · have hgroups : (runs BookEntry.price orders).flatMap
          (fun run => orders.filter fun e => decide (e.1.price = run.1))
        = (runs BookEntry.price orders).flatMap Prod.snd :=
      List.flatMap_congr fun run hmem => (hrun run hmem).symm
    rw [List.flatMap_map]
    exact hgroups.trans (flatMap_runs _ orders)

/-- Three orders, two of them at one price. -/
def sampleBook : OrderBook := [(⟨1000, 10⟩, 1), (⟨1000, 4294967295⟩, 2), (⟨2000, 5⟩, 3)]

theorem sampleBook_groups_by_price :
    collapseBook sampleBook = [(1000, 9), (2000, 5)] ∧
      ((collapseBook sampleBook).flatMap fun level =>
        sampleBook.filter fun e => decide (e.1.price = level.1)) = sampleBook :=
  ⟨by decide, (@collapse_groups_by_price sampleBook (by decide)).2.2.2⟩

end TradingDesk.Exec
