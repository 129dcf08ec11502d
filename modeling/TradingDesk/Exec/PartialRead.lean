import TradingDesk.Exec.RoundTrip

/-!
# TradingDesk.Exec.PartialRead

**What a reader leaves behind**, on bytes of any kind. The reader of a map keeps the
map only while it waits for the size field; from there on the map holds the orders
that are there in full, whether or not the reader finishes. `loadedOrders` are these
orders, side by side, and `find?_deserializeState` is what the engine holds after a
read that did not throw.
-/

namespace TradingDesk.Exec

open TradingDesk.Core
open UnorderedMap (find? clear reserve emplaceAll)

variable {T : Type} [UnorderedMap T UInt64 Order]

/-! ### Both maps -/

/-- Where the reader of a state starts on the map of a side, if it gets to a size field
there: the selling side has to be reached past a complete buying side. -/
def reached (host : ByteOrder) (mem : Memory) (p : Cursor) : Side → Option Cursor
  | .buy => if 8 ≤ p.l then some p else none
  | .sell =>
    let n := 8 + 16 * storedCount host mem p
    if 8 ≤ p.l ∧ (n : Int) + 8 ≤ p.l then some (p.skip n) else none

/-- The orders that the reader of a state puts into the map of a side; `none` if it
does not touch that map. -/
def loadedOrders (host : ByteOrder) (mem : Memory) (p : Cursor) (s : Side) :
    Option (List (UInt64 × Order)) :=
  (reached host mem p s).map (storedOrders host mem)

theorem loadedOrders_buy {p : Cursor} (h : 8 ≤ p.l) (host : ByteOrder) (mem : Memory) :
    loadedOrders host mem p .buy = some (storedOrders host mem p) := by
  rw [loadedOrders, reached, if_pos h]
  rfl

theorem loadedOrders_sell {p : Cursor} (h : 8 ≤ p.l) (host : ByteOrder) (mem : Memory) :
    loadedOrders host mem p .sell
      = if ((8 + 16 * storedCount host mem p : Nat) : Int) + 8 ≤ p.l then
          some (storedOrders host mem (p.skip (8 + 16 * storedCount host mem p)))
        else none := by
  simp only [loadedOrders, reached, h, true_and]
  split <;> rfl

/-- **What the engine holds after a read.** -/
theorem ExecutionEngine.find?_deserializeState {host : ByteOrder} {mem : Memory} {p p' : Cursor}
    {e e' : ExecutionEngine T} {done : Bool}
    (h : e.deserializeState host mem p = (some done, p', e')) (s : Side) :
    find? (e'.side s) = match loadedOrders host mem p s with
      | none => find? (e.side s)
      | some entries => fun k => entries.lookup k := by
  by_cases h8 : 8 ≤ p.l
  · rw [deserializeState] at h
    rcases hbuy : deserializeOrderMap host mem p e.allBuyOrders with ⟨_ | done₁, p₁, buys⟩
    · simp [hbuy] at h
    obtain ⟨hbuys, hdone, hpos⟩ := deserializeOrderMap_of_le h8 hbuy
    cases done₁ with
    | false =>
        -- the buying side is cut short: the selling side is not reached
        have hcut := of_decide_eq_false hdone.symm
        simp only [hbuy] at h
        cases h
        cases s with
        | buy => rw [loadedOrders_buy h8]; exact hbuys
        | sell => rw [loadedOrders_sell h8, if_neg (by push_cast; omega)]; rfl
    | true =>
        have hcovers := of_decide_eq_true hdone.symm
        obtain rfl := hpos rfl
        simp only [hbuy] at h
        rcases hsell : deserializeOrderMap host mem (p.skip (8 + 16 * storedCount host mem p))
          (e.setSide .buy buys).allSellOrders with ⟨done₂, p₂, sells⟩
        rw [hsell] at h
        cases h
        cases s with
        | buy => rw [loadedOrders_buy h8]; exact hbuys
        | sell =>
            rw [loadedOrders_sell h8]
            by_cases hmore : ((8 + 16 * storedCount host mem p : Nat) : Int) + 8 ≤ p.l
            · rw [if_pos hmore]
              exact (deserializeOrderMap_of_le (by rw [Cursor.skip_l]; omega) hsell).1
            · -- no second size field
              rw [deserializeOrderMap_of_lt (by rw [Cursor.skip_l]; omega)] at hsell
              cases hsell
              rw [if_neg hmore]
              rfl
  · rw [deserializeState, deserializeOrderMap_of_lt (by omega)] at h
    cases h
    cases s <;> simp [loadedOrders, reached, h8] <;> rfl

end TradingDesk.Exec
