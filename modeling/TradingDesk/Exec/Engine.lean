import TradingDesk.Core.Double
import TradingDesk.Core.Machine
import TradingDesk.Core.UnorderedMap
import TradingDesk.Itch.Messages

/-!
# TradingDesk.Exec.Engine

**The execution engine** (`itch_exec.hpp`, `execution_engine`): two hash maps of
resting orders, and `run_order`, which applies one order record to them.

The engine is written over an arbitrary table implementation `T` and an arbitrary
floating-point arithmetic `F`, so nothing about it depends on the hash function,
on the iteration order or on rounding. `side` and `setSide` name the map that the
source selects by a reference (`auto & m = is_buy ? … : …`) or passes as a
template argument.

An insertion may throw. `runAddOrder`, `runReplaceOrder` and `runOrder` are the operations where
it does not; `runAddOrder?`, `runReplaceOrder?` and `runOrder?` are the same with the exception,
and `runOrder?_of_fits` and `runOrder?_of_not_fits` say when there is one.
-/

namespace TradingDesk.Exec

open TradingDesk.Core
open TradingDesk.Itch (MessageType)
open UnorderedMap (find? emplace emplace? overflows assign erase)

/-! ### Data -/

/-- An order at an instant, on either side. -/
structure Order where
  /-- The price, fixed point. -/
  price : UInt32
  /-- The remaining shares. -/
  shares : UInt32
  deriving Repr, DecidableEq

/-- The two sides of the book. -/
inductive Side
  | buy
  | sell
  deriving Repr, DecidableEq

/-- The side an `is_buy` flag selects. -/
def Side.ofIsBuy (isBuy : Bool) : Side := if isBuy then .buy else .sell

/-- One row of the orders table, as `get_orders_records` hands it to the engine. -/
structure OrderRecord (F : Type) where
  reference : UInt64
  newReference : UInt64
  shares : UInt32
  price : F
  orderType : UInt8
  isBuy : Bool
  deriving Repr, DecidableEq

/-- The engine's state. -/
structure ExecutionEngine (T : Type) where
  allBuyOrders : T
  allSellOrders : T

namespace ExecutionEngine

section

variable {T : Type}

/-- The map of one side. -/
def side (e : ExecutionEngine T) : Side → T
  | .buy => e.allBuyOrders
  | .sell => e.allSellOrders

/-- Replace the map of one side. -/
def setSide (e : ExecutionEngine T) : Side → T → ExecutionEngine T
  | .buy, m => { e with allBuyOrders := m }
  | .sell, m => { e with allSellOrders := m }

@[simp] theorem side_setSide_self (e : ExecutionEngine T) (s : Side) (m : T) :
    (e.setSide s m).side s = m := by
  cases s <;> rfl

theorem side_setSide_of_ne (e : ExecutionEngine T) {s s' : Side} (m : T) (h : s' ≠ s) :
    (e.setSide s m).side s' = e.side s' := by
  cases s <;> cases s' <;> first | rfl | exact absurd rfl h

end

variable {T F : Type} [UnorderedMap T UInt64 Order] [DoubleArith F]

/-- An engine without orders. -/
def empty : ExecutionEngine T := ⟨UnorderedMap.empty, UnorderedMap.empty⟩

/-! ### Operations -/

/-- `convert_to_fix`: `static_cast<std::uint32_t>(p * 1000.0)`. -/
def convertToFix (p : F) : UInt32 :=
  DoubleArith.toUInt32 (DoubleArith.mul p (DoubleArith.ofUInt32 1000))

/-- `run_add_order`. The outcome of `emplace` is not looked at. -/
def runAddOrder (e : ExecutionEngine T) (isBuy : Bool) (reference : UInt64) (shares : UInt32)
    (price : F) : ExecutionEngine T :=
  let s := Side.ofIsBuy isBuy
  e.setSide s (emplace (e.side s) reference ⟨convertToFix price, shares⟩)

/-- `run_execute_order` on one map: subtract the shares in 32-bit arithmetic, and
drop the order once none are left. -/
def runExecuteOrderOn (m : T) (reference : UInt64) (shares : UInt32) : Bool × T :=
  match find? m reference with
  | some o =>
    let left := o.shares - shares
    let m := assign m reference { o with shares := left }
    if left = 0 then (true, erase m reference) else (true, m)
  | none => (false, m)

/-- `if (op(_all_buy_orders)) return true; return op(_all_sell_orders);`: the sell
map is tried only if the operation found nothing in the buy map. -/
def buyThenSell (e : ExecutionEngine T) (op : T → Bool × T) : Bool × ExecutionEngine T :=
  let (done, m) := op e.allBuyOrders
  let e := e.setSide .buy m
  if done then (true, e)
  else
    let (done, m) := op e.allSellOrders
    (done, e.setSide .sell m)

/-- `run_execute_order`. -/
def runExecuteOrder (e : ExecutionEngine T) (reference : UInt64) (shares : UInt32) :
    Bool × ExecutionEngine T :=
  e.buyThenSell fun m => runExecuteOrderOn m reference shares

/-- `run_cancel_order`. -/
def runCancelOrder (e : ExecutionEngine T) (reference : UInt64) (shares : UInt32) :
    Bool × ExecutionEngine T :=
  runExecuteOrder e reference shares

/-- `m.erase(reference) > 0u`. -/
def eraseKey (m : T) (reference : UInt64) : Bool × T :=
  ((find? m reference).isSome, erase m reference)

/-- `run_delete_order`. -/
def runDeleteOrder (e : ExecutionEngine T) (reference : UInt64) : Bool × ExecutionEngine T :=
  e.buyThenSell fun m => eraseKey m reference

/-- `run_replace_order` on one map, which is the map of the side `is_buy` names. -/
def runReplaceOrderOn (e : ExecutionEngine T) (isBuy : Bool) (reference newReference : UInt64)
    (shares : UInt32) (price : F) : Bool × ExecutionEngine T :=
  let s := Side.ofIsBuy isBuy
  match find? (e.side s) reference with
  | none => (false, e)
  | some _ =>
    (true, (e.setSide s (erase (e.side s) reference)).runAddOrder isBuy newReference shares price)

/-- `run_replace_order`. -/
def runReplaceOrder (e : ExecutionEngine T) (reference newReference : UInt64) (shares : UInt32)
    (price : F) : Bool × ExecutionEngine T :=
  let (done, e) := e.runReplaceOrderOn true reference newReference shares price
  if done then (true, e) else e.runReplaceOrderOn false reference newReference shares price

/-- `run_order`: the `switch` over the record's type. -/
def runOrder (e : ExecutionEngine T) (record : OrderRecord F) : Bool × ExecutionEngine T :=
  match MessageType.ofCode? record.orderType with
  | some .addOrderWithAttribution
  | some .addOrderWithoutAttribution =>
    (true, e.runAddOrder record.isBuy record.reference record.shares record.price)
  | some .orderExecuted
  | some .orderExecutedWithPrice => e.runExecuteOrder record.reference record.shares
  | some .orderCancel => e.runCancelOrder record.reference record.shares
  | some .orderDelete => e.runDeleteOrder record.reference
  | some .orderReplace =>
    e.runReplaceOrder record.reference record.newReference record.shares record.price
  | _ => (false, e)

/-! ### The exception of a full table -/

/-- `run_add_order`, with the exception of its `emplace`. -/
def runAddOrder? (e : ExecutionEngine T) (isBuy : Bool) (reference : UInt64) (shares : UInt32)
    (price : F) : Option (ExecutionEngine T) :=
  let s := Side.ofIsBuy isBuy
  (emplace? (e.side s) reference ⟨convertToFix price, shares⟩).map (e.setSide s)

/-- `run_replace_order` on one map, with the exception of `run_add_order`. -/
def runReplaceOrderOn? (e : ExecutionEngine T) (isBuy : Bool) (reference newReference : UInt64)
    (shares : UInt32) (price : F) : Option (Bool × ExecutionEngine T) :=
  let s := Side.ofIsBuy isBuy
  match find? (e.side s) reference with
  | none => some (false, e)
  | some _ =>
    ((e.setSide s (erase (e.side s) reference)).runAddOrder? isBuy newReference shares price).map
      fun e => (true, e)

/-- `run_replace_order`, with the exception. -/
def runReplaceOrder? (e : ExecutionEngine T) (reference newReference : UInt64) (shares : UInt32)
    (price : F) : Option (Bool × ExecutionEngine T) :=
  match e.runReplaceOrderOn? true reference newReference shares price with
  | none => none
  | some (true, e) => some (true, e)
  | some (false, e) => e.runReplaceOrderOn? false reference newReference shares price

/-- `run_order`, with the exception. -/
def runOrder? (e : ExecutionEngine T) (record : OrderRecord F) :
    Option (Bool × ExecutionEngine T) :=
  match MessageType.ofCode? record.orderType with
  | some .addOrderWithAttribution
  | some .addOrderWithoutAttribution =>
    (e.runAddOrder? record.isBuy record.reference record.shares record.price).map fun e => (true, e)
  | some .orderExecuted
  | some .orderExecutedWithPrice => some (e.runExecuteOrder record.reference record.shares)
  | some .orderCancel => some (e.runCancelOrder record.reference record.shares)
  | some .orderDelete => some (e.runDeleteOrder record.reference)
  | some .orderReplace =>
    e.runReplaceOrder? record.reference record.newReference record.shares record.price
  | _ => some (false, e)

/-! When there is an exception: a record comes to one insertion at most. -/

/-- What `run_replace_order` on one map inserts into, and what: the map without the order that is
replaced, and the new reference. -/
def replacement (e : ExecutionEngine T) (isBuy : Bool) (reference newReference : UInt64) :
    Option (T × UInt64) :=
  let s := Side.ofIsBuy isBuy
  (find? (e.side s) reference).map fun _ => (erase (e.side s) reference, newReference)

/-- What a record inserts into, and the reference it inserts. -/
def insertion (e : ExecutionEngine T) (record : OrderRecord F) : Option (T × UInt64) :=
  match MessageType.ofCode? record.orderType with
  | some .addOrderWithAttribution
  | some .addOrderWithoutAttribution => some (e.side (Side.ofIsBuy record.isBuy), record.reference)
  | some .orderReplace =>
    (e.replacement true record.reference record.newReference).or
      (e.replacement false record.reference record.newReference)
  | _ => none

/-- An insertion, if there is one, does not throw. -/
def Taken (into : Option (T × UInt64)) : Prop :=
  ∀ insertion ∈ into, overflows insertion.1 insertion.2 = false

instance (into : Option (T × UInt64)) : Decidable (Taken into) :=
  inferInstanceAs (Decidable (∀ insertion ∈ into, _))

/-- The table that a record inserts into takes the reference. -/
def Fits (e : ExecutionEngine T) (record : OrderRecord F) : Prop := Taken (e.insertion record)

instance (e : ExecutionEngine T) (record : OrderRecord F) : Decidable (e.Fits record) :=
  inferInstanceAs (Decidable (Taken _))

section

variable (e : ExecutionEngine T)

theorem runAddOrder?_eq (isBuy : Bool) (reference shares) (price : F) :
    e.runAddOrder? isBuy reference shares price
      = if Taken (some (e.side (Side.ofIsBuy isBuy), reference)) then
          some (e.runAddOrder isBuy reference shares price)
        else none := by
  rw [runAddOrder?, emplace?]
  cases hover : overflows (e.side (Side.ofIsBuy isBuy)) reference <;>
    simp [Taken, hover, runAddOrder]

theorem runReplaceOrderOn?_eq (isBuy : Bool) (reference newReference shares) (price : F) :
    e.runReplaceOrderOn? isBuy reference newReference shares price
      = if Taken (e.replacement isBuy reference newReference) then
          some (e.runReplaceOrderOn isBuy reference newReference shares price)
        else none := by
  cases hfind : find? (e.side (Side.ofIsBuy isBuy)) reference with
  | none => simp [runReplaceOrderOn?, runReplaceOrderOn, replacement, hfind, Taken]
  | some o =>
      simp only [runReplaceOrderOn?, runReplaceOrderOn, replacement, hfind, runAddOrder?_eq,
        side_setSide_self, Option.map_some]
      split <;> rfl

/-- The selling map is looked at where nothing is under the reference in the buying one. -/
theorem runReplaceOrder?_eq (reference newReference shares) (price : F) :
    e.runReplaceOrder? reference newReference shares price
      = if Taken ((e.replacement true reference newReference).or
            (e.replacement false reference newReference)) then
          some (e.runReplaceOrder reference newReference shares price)
        else none := by
  rw [runReplaceOrder?, runReplaceOrder, runReplaceOrderOn?_eq]
  cases hbuy : find? (e.side (Side.ofIsBuy true)) reference with
  | some o =>
      have hinto : e.replacement true reference newReference
          = some (erase (e.side (Side.ofIsBuy true)) reference, newReference) := by
        simp [replacement, hbuy]
      rw [hinto, Option.some_or]
      by_cases htaken : Taken (some (erase (e.side (Side.ofIsBuy true)) reference, newReference))
      · simp [htaken, runReplaceOrderOn, hbuy]
      · simp [htaken]
  | none =>
      have hinto : e.replacement true reference newReference = none := by simp [replacement, hbuy]
      rw [hinto, Option.none_or]
      simp [runReplaceOrderOn, hbuy, Taken, runReplaceOrderOn?_eq]

/-- **What throws is the insertion.** Where it does not, a record is run to its end. -/
theorem runOrder?_eq (record : OrderRecord F) :
    e.runOrder? record = if e.Fits record then some (e.runOrder record) else none := by
  cases htype : MessageType.ofCode? record.orderType with
  | none => simp [runOrder?, runOrder, Fits, insertion, htype, Taken]
  | some messageType =>
      cases messageType with
      | addOrderWithAttribution | addOrderWithoutAttribution =>
          simp only [runOrder?, runOrder, Fits, insertion, htype, runAddOrder?_eq]
          split <;> rfl
      | orderReplace =>
          simp only [runOrder?, runOrder, Fits, insertion, htype, runReplaceOrder?_eq]
      | _ => simp [runOrder?, runOrder, Fits, insertion, htype, Taken]

theorem runOrder?_of_fits {e : ExecutionEngine T} {record : OrderRecord F} (h : e.Fits record) :
    e.runOrder? record = some (e.runOrder record) := by
  rw [runOrder?_eq, if_pos h]

theorem runOrder?_of_not_fits {e : ExecutionEngine T} {record : OrderRecord F}
    (h : ¬ e.Fits record) : e.runOrder? record = none := by
  rw [runOrder?_eq, if_neg h]

end

/-- The engine after running `records` one after the other, starting without
orders. -/
def replay (T : Type) [UnorderedMap T UInt64 Order] (records : List (OrderRecord F)) :
    ExecutionEngine T :=
  run runOrder empty records

/-- The answers to `records` and the engine after them, starting without orders; `none` once a
table throws. -/
def replay? (T : Type) [UnorderedMap T UInt64 Order] (records : List (OrderRecord F)) :
    Option (List Bool × ExecutionEngine T) :=
  run? runOrder? empty records

/-- **A run is to its end** if and only if none of its insertions throws. -/
theorem run?_eq_some_iff {e : ExecutionEngine T} {records : List (OrderRecord F)}
    {out : List Bool × ExecutionEngine T} :
    run? runOrder? e records = some out ↔
      Along runOrder Fits e records ∧ (outputs runOrder e records, run runOrder e records) = out :=
  run?_eq_some (fun _ _ => runOrder?_of_fits) fun _ _ => runOrder?_of_not_fits

/-- Engines of lists of orders run every record to its end. -/
theorem along_fits_assocList (e : ExecutionEngine (AssocList UInt64 Order))
    (records : List (OrderRecord F)) : Along runOrder Fits e records :=
  Along.of_forall_mem (fun _ _ _ _ _ => rfl) e

end ExecutionEngine

end TradingDesk.Exec
