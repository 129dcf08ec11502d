import Mathlib.Data.List.Sort
import TradingDesk.Exec.Resting

/-!
# TradingDesk.Exec.Book

**Order books** (`itch_exec.hpp`, `make_book` and `collapse_book`). A book lists a
map's orders sorted by price, then shares, then reference. That is a total order
of the entries of a map, so the sorted list, and everything computed from it,
depends on which orders the map holds and on nothing else about the table.
-/

namespace TradingDesk.Exec

open TradingDesk.Core
open UnorderedMap (find? toList)

/-! ### The order of book entries -/

/-- `order::operator<`. -/
def Order.lt (a b : Order) : Bool :=
  decide (a.price < b.price) || (a.price == b.price && decide (a.shares < b.shares))

/-- An entry of an `order_book`. -/
abbrev BookEntry := Order × UInt64

/-- `operator<` of `std::pair<order, std::uint64_t>`. -/
def BookEntry.lt (a b : BookEntry) : Bool :=
  a.1.lt b.1 || (!b.1.lt a.1 && decide (a.2 < b.2))

/-- The entries in their order, as one number. -/
def BookEntry.key (a : BookEntry) : Nat :=
  (a.1.price.toNat * 2 ^ 32 + a.1.shares.toNat) * 2 ^ 64 + a.2.toNat

theorem BookEntry.lt_iff (a b : BookEntry) : a.lt b ↔ a.key < b.key := by
  obtain ⟨⟨p, k⟩, ref⟩ := a
  obtain ⟨⟨p', k'⟩, ref'⟩ := b
  have := k.toNat_lt
  have := k'.toNat_lt
  have := ref.toNat_lt
  have := ref'.toNat_lt
  simp only [lt, Order.lt, key, Bool.or_eq_true, Bool.and_eq_true, Bool.not_eq_true',
    Bool.or_eq_false_iff, Bool.and_eq_false_iff, decide_eq_true_eq, decide_eq_false_iff_not,
    beq_iff_eq, beq_eq_false_iff_ne, UInt32.lt_iff_toNat_lt, UInt64.lt_iff_toNat_lt,
    ← UInt32.toNat_inj, ne_eq]
  omega

/-- `operator<` compares prices, then shares, then references. -/
theorem BookEntry.lt_iff_lex {a b : BookEntry} : a.lt b ↔
    a.1.price < b.1.price ∨ a.1.price = b.1.price ∧
      (a.1.shares < b.1.shares ∨ a.1.shares = b.1.shares ∧ a.2 < b.2) := by
  simp only [lt, Order.lt, Bool.or_eq_true, Bool.and_eq_true, Bool.not_eq_true',
    Bool.or_eq_false_iff, Bool.and_eq_false_iff, decide_eq_true_eq, decide_eq_false_iff_not,
    beq_iff_eq, beq_eq_false_iff_ne, UInt32.lt_iff_toNat_lt, UInt64.lt_iff_toNat_lt,
    ← UInt32.toNat_inj, ne_eq]
  omega

theorem BookEntry.key_injective : Function.Injective BookEntry.key := by
  rintro ⟨⟨p, k⟩, ref⟩ ⟨⟨p', k'⟩, ref'⟩ h
  have := k.toNat_lt
  have := k'.toNat_lt
  have := ref.toNat_lt
  have := ref'.toNat_lt
  simp only [key] at h
  simp only [Prod.mk.injEq, Order.mk.injEq, ← UInt32.toNat_inj, ← UInt64.toNat_inj]
  omega

/-- Not greater, which is what sorting by `operator<` establishes. -/
def BookEntry.Le (a b : BookEntry) : Prop := b.lt a = false

instance : DecidableRel BookEntry.Le := fun a b => inferInstanceAs (Decidable (b.lt a = false))

theorem BookEntry.le_iff (a b : BookEntry) : a.Le b ↔ a.key ≤ b.key := by
  rw [Le, ← Bool.not_eq_true, lt_iff, Nat.not_lt]

instance : Std.Total BookEntry.Le :=
  ⟨fun a b => by rw [BookEntry.le_iff, BookEntry.le_iff]; exact Nat.le_total _ _⟩

instance : IsTrans BookEntry BookEntry.Le :=
  ⟨fun a b c => by simp only [BookEntry.le_iff]; exact Nat.le_trans⟩

instance : Std.Antisymm BookEntry.Le :=
  ⟨fun a b hab hba => BookEntry.key_injective
    (Nat.le_antisymm ((BookEntry.le_iff a b).mp hab) ((BookEntry.le_iff b a).mp hba))⟩

/-! ### Books -/

/-- `order_book`: a multimap, as its sequence. -/
abbrev OrderBook := List BookEntry

variable {T T' : Type} [UnorderedMap T UInt64 Order] [UnorderedMap T' UInt64 Order]

/-- `make_book`: the entries of a map, sorted. -/
def makeBook (m : T) : OrderBook :=
  ((toList m).map fun e => (e.2, e.1)).insertionSort BookEntry.Le

theorem makeBook_perm (m : T) : (makeBook m).Perm ((toList m).map fun e => (e.2, e.1)) :=
  List.perm_insertionSort _ _

/-- The book has the map's orders and no others. -/
theorem mem_makeBook {m : T} {o : Order} {ref : UInt64} :
    (o, ref) ∈ makeBook m ↔ find? m ref = some o := by
  rw [(makeBook_perm m).mem_iff, ← UnorderedMap.mem_toList, List.mem_map]
  constructor
  · intro hlisted
    obtain ⟨e, he, heq⟩ := hlisted
    cases heq
    exact he
  · intro he
    exact ⟨_, he, rfl⟩

/-- Every order is in the book once. -/
theorem nodup_makeBook (m : T) : (makeBook m).Nodup := by
  rw [(makeBook_perm m).nodup_iff]
  exact (UnorderedMap.nodup_toList m).map Prod.swap_injective

/-- By price, then shares, then reference. -/
theorem pairwise_makeBook (m : T) : (makeBook m).Pairwise fun a b =>
    a.1.price < b.1.price ∨ a.1.price = b.1.price ∧
      (a.1.shares < b.1.shares ∨ a.1.shares = b.1.shares ∧ a.2 < b.2) := by
  have hsorted : (makeBook m).Pairwise BookEntry.Le := List.pairwise_insertionSort _ _
  refine (hsorted.and (nodup_makeBook m)).imp ?_
  rintro a b ⟨hle, hne⟩
  have hkey : a.key ≠ b.key := fun h => hne (BookEntry.key_injective h)
  exact BookEntry.lt_iff_lex.mp ((a.lt_iff b).mpr (lt_of_le_of_ne ((a.le_iff b).mp hle) hkey))

/-- **Books are canonical.** Maps with the same orders have the same book, whatever the
tables. -/
theorem makeBook_congr {m : T} {m' : T'} (h : find? m = find? m') : makeBook m = makeBook m' := by
  have hperm : (makeBook m).Perm (makeBook m') :=
    (List.perm_insertionSort _ _).trans <|
      ((UnorderedMap.toList_perm (congrFun h)).map _).trans (List.perm_insertionSort _ _).symm
  exact hperm.eq_of_pairwise' (List.pairwise_insertionSort _ _) (List.pairwise_insertionSort _ _)

namespace ExecutionEngine

/-- `buy_book`. -/
def buyBook (e : ExecutionEngine T) : OrderBook := makeBook e.allBuyOrders

/-- `sell_book`. -/
def sellBook (e : ExecutionEngine T) : OrderBook := makeBook e.allSellOrders

/-- The book of a side. -/
def book (e : ExecutionEngine T) : Side → OrderBook
  | .buy => e.buyBook
  | .sell => e.sellBook

theorem book_eq (e : ExecutionEngine T) (s : Side) : e.book s = makeBook (e.side s) := by
  cases s <;> rfl

end ExecutionEngine

/-- **Books are complete, sorted and canonical.** For every engine, on each side: the book
has exactly the orders that rest there, each of them once, sorted by price, then shares,
then reference; and an engine on any tables that holds the same orders has the same
book. -/
theorem books_complete_sorted_canonical (e : ExecutionEngine T) (s : Side) :
    (∀ o ref, (o, ref) ∈ e.book s ↔ find? (e.side s) ref = some o) ∧
    (e.book s).Nodup ∧
    ((e.book s).Pairwise fun a b => a.1.price < b.1.price ∨ a.1.price = b.1.price ∧
      (a.1.shares < b.1.shares ∨ a.1.shares = b.1.shares ∧ a.2 < b.2)) ∧
    ∀ (T' : Type) [UnorderedMap T' UInt64 Order] (e' : ExecutionEngine T'),
      find? (e.side s) = find? (e'.side s) → e.book s = e'.book s := by
  rw [e.book_eq s]
  refine ⟨fun o ref => mem_makeBook, nodup_makeBook _, pairwise_makeBook _, ?_⟩
  intro T' _ e' hsame
  rw [e'.book_eq s]
  exact makeBook_congr hsame

/-! ### Collapsed books -/

/-- `collapsed_book`: a map from prices to shares, as its sequence in the order of
the prices. -/
abbrev CollapsedBook := List (UInt32 × UInt32)

/-- `emplace` of a sorted map: the map, and the position of the entry with the key,
which is inserted only if there was none. -/
def CollapsedBook.emplace (res : CollapsedBook) (price shares : UInt32) : CollapsedBook × Nat :=
  let i := (res.takeWhile fun level => decide (level.1 < price)).length
  match res[i]? with
  | some level =>
    if level.1 = price then (res, i) else (res.take i ++ (price, shares) :: res.drop i, i)
  | none => (res ++ [(price, shares)], i)

/-- The body of the loop of `collapse_book`, on the map and the position of
`it_dest`. -/
def collapseOrder (state : CollapsedBook × Nat) (e : BookEntry) : CollapsedBook × Nat :=
  let (res, itDest) := state
  match res[itDest]? with
  | none => (res, itDest)
  | some level =>
    if level.1 = e.1.price then (res.set itDest (level.1, level.2 + e.1.shares), itDest)
    else res.emplace e.1.price e.1.shares

/-- `collapse_book`. -/
def collapseBook : OrderBook → CollapsedBook
  | [] => []
  | e :: orders =>
    (orders.foldl collapseOrder (CollapsedBook.emplace [] e.1.price e.1.shares)).1

end TradingDesk.Exec
