import TradingDesk.Exec.Engine

/-!
# TradingDesk.Exec.Resting

**The engine without its tables.** What the engine knows is which order rests
under which reference on which side; `Resting` is that function and nothing else.
`Resting.step` says what one record does to it, one equation for each group of
record types, and `runOrder_simulates` is the refinement: over every table
implementation, `run_order` returns and stores what `Resting.step` says.

Everything proved about runs of the engine is proved about `Resting.step` and
carried over by this one theorem.
-/

namespace TradingDesk.Exec

open TradingDesk.Core
open TradingDesk.Itch (MessageType)
open UnorderedMap (find? emplace assign erase)

/-- Which order rests on a side under a reference. -/
abbrev Resting := Side → UInt64 → Option Order

/-- The orders an engine holds. -/
def ExecutionEngine.resting {T : Type} [UnorderedMap T UInt64 Order] (e : ExecutionEngine T) :
    Resting := fun s => find? (e.side s)

/-! ### Record types -/

/-- What a record type does; the seven known types fall into four groups. -/
inductive Action
  /-- `A`, `F`: introduce an order. -/
  | add
  /-- `E`, `C`, `X`: take shares from an order. -/
  | reduce
  /-- `D`: remove an order. -/
  | delete
  /-- `U`: remove an order and introduce its replacement. -/
  | replace
  /-- Anything else. -/
  | unknown
  deriving Repr, DecidableEq

/-- The group a record's type belongs to. -/
def OrderRecord.action {F : Type} (r : OrderRecord F) : Action :=
  match MessageType.ofCode? r.orderType with
  | some .addOrderWithAttribution | some .addOrderWithoutAttribution => .add
  | some .orderExecuted | some .orderExecutedWithPrice | some .orderCancel => .reduce
  | some .orderDelete => .delete
  | some .orderReplace => .replace
  | _ => .unknown

section

variable {F : Type} [DoubleArith F]

/-- The order a record introduces. -/
def OrderRecord.order (r : OrderRecord F) : Order :=
  ⟨ExecutionEngine.convertToFix r.price, r.shares⟩

/-- The side a record names. -/
def OrderRecord.side {F : Type} (r : OrderRecord F) : Side := Side.ofIsBuy r.isBuy

end

/-- What is left of an order after `n` shares are subtracted in 32-bit arithmetic. -/
def Order.reduce (o : Order) (n : UInt32) : Option Order :=
  if o.shares - n = 0 then none else some { o with shares := o.shares - n }

/-- Within the order's shares the subtraction is exact. -/
theorem Order.reduce_eq_some {o o' : Order} {n : UInt32} (h : n.toNat ≤ o.shares.toNat) :
    o.reduce n = some o' ↔
      o'.price = o.price ∧ o'.shares.toNat + n.toNat = o.shares.toNat ∧ 0 < o'.shares.toNat := by
  have hsub : (o.shares - n).toNat = o.shares.toNat - n.toNat :=
    UInt32.toNat_sub_of_le _ _ (UInt32.le_iff_toNat_le.mpr h)
  have hzero : o.shares - n = 0 ↔ o.shares.toNat - n.toNat = 0 := by
    rw [← UInt32.toNat_inj, hsub]
    rfl
  obtain ⟨p', k'⟩ := o'
  unfold Order.reduce
  by_cases hz : o.shares - n = 0
  · rw [if_pos hz]
    constructor
    · intro hc
      cases hc
    · intro hleft
      obtain ⟨-, hk, hpos⟩ := hleft
      simp only [] at hk hpos
      have := hzero.mp hz
      omega
  · rw [if_neg hz, Option.some.injEq, Order.mk.injEq, ← UInt32.toNat_inj (a := o.shares - n), hsub]
    have := mt hzero.mpr hz
    simp only []
    constructor
    · intro hleft
      obtain ⟨rfl, hk⟩ := hleft
      exact ⟨rfl, by omega, by omega⟩
    · intro hleft
      obtain ⟨rfl, hk, -⟩ := hleft
      exact ⟨rfl, by omega⟩

namespace Resting

/-! ### Looking up and writing single references -/

/-- Nothing rests. -/
def empty : Resting := fun _ _ => none

/-- Write one reference of one side. -/
def set (b : Resting) (s : Side) (ref : UInt64) (o : Option Order) : Resting :=
  Function.update b s (Function.update (b s) ref o)

@[simp] theorem set_self (b : Resting) (s : Side) (ref : UInt64) (o : Option Order) :
    b.set s ref o s ref = o := by
  simp [set]

theorem set_apply (b : Resting) (s s' : Side) (ref ref' : UInt64) (o : Option Order) :
    b.set s ref o s' ref' = if s' = s ∧ ref' = ref then o else b s' ref' := by
  by_cases hs : s' = s
  · subst hs
    by_cases hr : ref' = ref <;> simp [set, hr]
  · simp [set, hs]

theorem set_of_ne (b : Resting) {s s' : Side} {ref ref' : UInt64} (o : Option Order)
    (h : ref' ≠ ref) : b.set s ref o s' ref' = b s' ref' := by
  rw [set_apply, if_neg fun hc => h hc.2]

theorem set_set (b : Resting) (s : Side) (ref : UInt64) (o o' : Option Order) :
    (b.set s ref o).set s ref o' = b.set s ref o' := by
  funext s' ref'
  rw [set_apply, set_apply, set_apply]
  split <;> rfl

theorem set_eq_self {b : Resting} {s : Side} {ref : UInt64} {o : Option Order} (h : b s ref = o) :
    b.set s ref o = b := by
  funext s' ref'
  rw [set_apply]
  split
  · rename_i hc
    rw [hc.1, hc.2, h]
  · rfl

theorem set_none_eq_some {b : Resting} {s s' : Side} {ref ref' : UInt64} {o : Order} :
    b.set s ref none s' ref' = some o ↔ b s' ref' = some o ∧ ¬ (s' = s ∧ ref' = ref) := by
  rw [set_apply]
  split <;> simp [*]

/-- Writing a reference that rests nowhere adds one order and changes no other. -/
theorem set_some_eq_some {b : Resting} {s s' : Side} {ref ref' : UInt64} {o o' : Order}
    (hnone : ∀ s, b s ref = none) :
    b.set s ref (some o) s' ref' = some o' ↔
      (ref' = ref ∧ s' = s ∧ o' = o) ∨ b s' ref' = some o' := by
  rw [set_apply]
  by_cases href : ref' = ref
  · subst href
    by_cases hs : s' = s <;> simp [hs, hnone, eq_comm]
  · simp [href]

/-- The order a lookup hits: the buy side first. -/
def hit (b : Resting) (ref : UInt64) : Option (Side × Order) :=
  match b .buy ref with
  | some o => some (.buy, o)
  | none => (b .sell ref).map fun o => (.sell, o)

theorem hit_eq_none {b : Resting} {ref : UInt64} :
    b.hit ref = none ↔ ∀ s, b s ref = none := by
  unfold hit
  constructor
  · intro h s
    cases hb : b .buy ref with
    | some o => simp [hb] at h
    | none =>
        cases s with
        | buy => exact hb
        | sell => simpa [hb] using h
  · intro h
    simp [h]

/-- What a lookup hits rests there. -/
theorem eq_some_of_hit {b : Resting} {ref : UInt64} {s : Side} {o : Order}
    (h : b.hit ref = some (s, o)) : b s ref = some o := by
  unfold hit at h
  cases hb : b .buy ref with
  | some o' =>
      rw [hb] at h
      obtain ⟨rfl, rfl⟩ : Side.buy = s ∧ o' = o := by simpa using h
      exact hb
  | none =>
      rw [hb] at h
      obtain ⟨o', ho', heq⟩ := Option.map_eq_some_iff.mp h
      obtain ⟨rfl, rfl⟩ : Side.sell = s ∧ o' = o := by simpa using heq
      exact ho'

/-! ### One record -/

/-- Introduce an order unless its reference already rests on that side. -/
def add (b : Resting) (s : Side) (ref : UInt64) (o : Order) : Resting :=
  b.set s ref (some ((b s ref).getD o))

theorem add_of_free {b : Resting} {s : Side} {ref : UInt64} (h : b s ref = none) (o : Order) :
    b.add s ref o = b.set s ref (some o) := by
  rw [add, h]
  rfl

theorem add_of_taken {b : Resting} {s : Side} {ref : UInt64} (h : b s ref ≠ none) (o : Order) :
    b.add s ref o = b := by
  obtain ⟨o', ho'⟩ := Option.ne_none_iff_exists'.mp h
  rw [add, ho']
  exact set_eq_self ho'

variable {F : Type} [DoubleArith F]

/-- What one record does. -/
def step (b : Resting) (r : OrderRecord F) : Bool × Resting :=
  match r.action with
  | .add => (true, b.add r.side r.reference r.order)
  | .reduce =>
    match b.hit r.reference with
    | some (s, o) => (true, b.set s r.reference (o.reduce r.shares))
    | none => (false, b)
  | .delete =>
    match b.hit r.reference with
    | some (s, _) => (true, b.set s r.reference none)
    | none => (false, b)
  | .replace =>
    match b.hit r.reference with
    | some (s, _) => (true, (b.set s r.reference none).add s r.newReference r.order)
    | none => (false, b)
  | .unknown => (false, b)

/-- Everything a record can do: the outcomes of `step`, each with the condition
under which it is the outcome. -/
inductive Effect (b : Resting) (r : OrderRecord F) : Bool × Resting → Prop
  /-- An add always succeeds. -/
  | add (hr : r.action = .add) : Effect b r (true, b.add r.side r.reference r.order)
  /-- Shares are taken from the order that was hit. -/
  | reduce {s : Side} {o : Order} (hr : r.action = .reduce)
      (hhit : b.hit r.reference = some (s, o)) :
      Effect b r (true, b.set s r.reference (o.reduce r.shares))
  /-- The order that was hit is removed. -/
  | delete {s : Side} {o : Order} (hr : r.action = .delete)
      (hhit : b.hit r.reference = some (s, o)) : Effect b r (true, b.set s r.reference none)
  /-- The order that was hit is removed, then its replacement introduced. -/
  | replace {s : Side} {o : Order} (hr : r.action = .replace)
      (hhit : b.hit r.reference = some (s, o)) :
      Effect b r (true, (b.set s r.reference none).add s r.newReference r.order)
  /-- Nothing happens. -/
  | miss (hr : r.action ≠ .add) (hmiss : r.action = .unknown ∨ b.hit r.reference = none) :
      Effect b r (false, b)

theorem step_effect (b : Resting) (r : OrderRecord F) : Effect b r (b.step r) := by
  unfold step
  cases hr : r.action with
  | add => exact .add hr
  | unknown => exact .miss (by simp [hr]) (Or.inl hr)
  | reduce | delete | replace =>
      cases hhit : b.hit r.reference with
      | none => exact .miss (by simp [hr]) (Or.inr hhit)
      | some so => first | exact .reduce hr hhit | exact .delete hr hhit | exact .replace hr hhit

end Resting

/-! ### The refinement -/

namespace ExecutionEngine

variable {T F : Type} [UnorderedMap T UInt64 Order] [DoubleArith F]

@[simp] theorem resting_empty : (empty : ExecutionEngine T).resting = Resting.empty := by
  funext s ref
  cases s <;> exact UnorderedMap.find?_empty ref

theorem resting_setSide (e : ExecutionEngine T) (s : Side) (m : T) :
    (e.setSide s m).resting = Function.update e.resting s (find? m) := by
  funext s'
  by_cases h : s' = s
  · subst h
    simp [resting]
  · simp [resting, side_setSide_of_ne e m h, h]

theorem resting_runAddOrder (e : ExecutionEngine T) (isBuy : Bool) (ref : UInt64)
    (shares : UInt32) (price : F) :
    (e.runAddOrder isBuy ref shares price).resting
      = e.resting.add (Side.ofIsBuy isBuy) ref ⟨convertToFix price, shares⟩ := by
  rw [runAddOrder, resting_setSide, UnorderedMap.find?_emplace]
  rfl

/-- One map: the shares are subtracted from the order found there, if any. -/
theorem runExecuteOrderOn_eq (m : T) (ref : UInt64) (shares : UInt32) :
    (runExecuteOrderOn m ref shares).1 = (find? m ref).isSome ∧
      find? (runExecuteOrderOn m ref shares).2
        = Function.update (find? m) ref ((find? m ref).bind fun o => o.reduce shares) := by
  unfold runExecuteOrderOn
  cases h : find? m ref with
  | none =>
      have hself : Function.update (find? m) ref none = find? m := by
        rw [← h, Function.update_eq_self]
      exact ⟨rfl, hself.symm⟩
  | some o =>
      by_cases hz : o.shares - shares = 0
      · simp [hz, Order.reduce, UnorderedMap.find?_erase, UnorderedMap.find?_assign]
      · simp [hz, Order.reduce, UnorderedMap.find?_assign, h]

theorem eraseKey_eq (m : T) (ref : UInt64) :
    (eraseKey m ref).1 = (find? m ref).isSome ∧
      find? (eraseKey m ref).2 = Function.update (find? m) ref ((find? m ref).bind fun _ => none) :=
  ⟨rfl, by rw [eraseKey, UnorderedMap.find?_erase, Option.bind_fun_none]⟩

/-- An operation that looks at one reference of one map, tried on both maps in
turn, acts on the order that a lookup hits. `f` is what it leaves of an order. -/
theorem buyThenSell_eq {op : T → Bool × T} {ref : UInt64} {f : Order → Option Order}
    (hop : ∀ m, (op m).1 = (find? m ref).isSome ∧
      find? (op m).2 = Function.update (find? m) ref ((find? m ref).bind f))
    (e : ExecutionEngine T) :
    (e.buyThenSell op).1 = (e.resting.hit ref).isSome ∧
      (e.buyThenSell op).2.resting = match e.resting.hit ref with
        | some (s, o) => e.resting.set s ref (f o)
        | none => e.resting := by
  obtain ⟨hb1, hb2⟩ := hop e.allBuyOrders
  obtain ⟨hs1, hs2⟩ := hop e.allSellOrders
  have hbuy : e.resting .buy = find? e.allBuyOrders := rfl
  have hsell : e.resting .sell = find? e.allSellOrders := rfl
  have hother : ∀ m, (e.setSide .buy m).allSellOrders = e.allSellOrders := fun _ => rfl
  simp only [buyThenSell, Resting.hit, hbuy, hsell, hb1]
  cases hb : find? e.allBuyOrders ref with
  | some o =>
      rw [hb] at hb2
      simp [resting_setSide, hb2, Resting.set, hbuy]
  | none =>
      have hkeep : (e.setSide .buy (op e.allBuyOrders).2).resting = e.resting := by
        rw [resting_setSide, hb2, hb, Option.bind_none, ← hbuy, ← hb, ← hbuy]
        simp
      cases hs : find? e.allSellOrders ref with
      | some o =>
          rw [hs] at hs2
          simp [resting_setSide, hkeep, hother, hs1, hs2, hs, Resting.set, hsell]
      | none =>
          rw [hs, Option.bind_none, ← hsell, ← hs, ← hsell] at hs2
          simp [resting_setSide, hkeep, hother, hs1, hs, hs2]

theorem runReplaceOrderOn_eq (e : ExecutionEngine T) (isBuy : Bool) (ref newRef : UInt64)
    (shares : UInt32) (price : F) :
    (e.runReplaceOrderOn isBuy ref newRef shares price).1
        = (e.resting (Side.ofIsBuy isBuy) ref).isSome ∧
      (e.runReplaceOrderOn isBuy ref newRef shares price).2.resting
        = match e.resting (Side.ofIsBuy isBuy) ref with
          | some _ => (e.resting.set (Side.ofIsBuy isBuy) ref none).add (Side.ofIsBuy isBuy) newRef
              ⟨convertToFix price, shares⟩
          | none => e.resting := by
  have hside : find? (e.side (Side.ofIsBuy isBuy)) = e.resting (Side.ofIsBuy isBuy) := rfl
  unfold runReplaceOrderOn
  cases h : e.resting (Side.ofIsBuy isBuy) ref with
  | none => simp [hside, h]
  | some o =>
      simp [hside, h, resting_runAddOrder, resting_setSide, UnorderedMap.find?_erase, Resting.set]

theorem runReplaceOrder_eq (e : ExecutionEngine T) (ref newRef : UInt64) (shares : UInt32)
    (price : F) :
    (e.runReplaceOrder ref newRef shares price).1 = (e.resting.hit ref).isSome ∧
      (e.runReplaceOrder ref newRef shares price).2.resting = match e.resting.hit ref with
        | some (s, _) => (e.resting.set s ref none).add s newRef ⟨convertToFix price, shares⟩
        | none => e.resting := by
  obtain ⟨hb1, hb2⟩ := runReplaceOrderOn_eq e true ref newRef shares price
  simp only [runReplaceOrder, Resting.hit, hb1]
  cases hb : e.resting .buy ref with
  | some o =>
      simp only [Side.ofIsBuy, if_true, hb] at hb2 ⊢
      simp [hb2]
  | none =>
      simp only [Side.ofIsBuy, if_true, hb] at hb2 ⊢
      obtain ⟨hs1, hs2⟩ :=
        runReplaceOrderOn_eq (e.runReplaceOrderOn true ref newRef shares price).2 false ref newRef
          shares price
      rw [hb2] at hs1 hs2
      simp only [Side.ofIsBuy, Bool.false_eq_true, if_false] at hs1 hs2
      cases hs : e.resting .sell ref <;> simp [hs1, hs2, hs]

/-- **Refinement.** Over every table, `run_order` returns what `Resting.step`
returns, and the orders it leaves are those `Resting.step` leaves. -/
theorem runOrder_simulates :
    Simulates (runOrder (T := T) (F := F)) Resting.step fun e b => e.resting = b := by
  have hstep : ∀ (e : ExecutionEngine T) (r : OrderRecord F),
      (e.runOrder r).1 = (e.resting.step r).1 ∧
        (e.runOrder r).2.resting = (e.resting.step r).2 := by
    intro e r
    have hx := buyThenSell_eq (fun m => runExecuteOrderOn_eq m r.reference r.shares) e
    have hd := buyThenSell_eq (fun m => eraseKey_eq m r.reference) e
    have hr := runReplaceOrder_eq e r.reference r.newReference r.shares r.price
    unfold runOrder Resting.step OrderRecord.action
    cases MessageType.ofCode? r.orderType with
    | none => exact ⟨rfl, rfl⟩
    | some t =>
        cases t with
        | addOrderWithAttribution | addOrderWithoutAttribution =>
            exact ⟨rfl, resting_runAddOrder e r.isBuy r.reference r.shares r.price⟩
        | orderExecuted | orderExecutedWithPrice | orderCancel =>
            simp only [runCancelOrder, runExecuteOrder, hx]
            cases e.resting.hit r.reference <;> exact ⟨rfl, rfl⟩
        | orderDelete =>
            simp only [runDeleteOrder, hd]
            cases e.resting.hit r.reference <;> exact ⟨rfl, rfl⟩
        | orderReplace =>
            simp only [hr]
            cases e.resting.hit r.reference <;> exact ⟨rfl, rfl⟩
        | stockDirectory | tradeCross | tradeNonCross | brokenTradeOrder => exact ⟨rfl, rfl⟩
  exact ⟨fun h a => h ▸ (hstep _ a).1, fun h a => h ▸ (hstep _ a).2⟩

theorem runOrder_fst (e : ExecutionEngine T) (r : OrderRecord F) :
    (e.runOrder r).1 = (e.resting.step r).1 := runOrder_simulates.output rfl r

theorem resting_runOrder (e : ExecutionEngine T) (r : OrderRecord F) :
    (e.runOrder r).2.resting = (e.resting.step r).2 := runOrder_simulates.next rfl r

theorem resting_run (e : ExecutionEngine T) (records : List (OrderRecord F)) :
    (run runOrder e records).resting = run Resting.step e.resting records :=
  runOrder_simulates.run rfl records

theorem resting_replay (records : List (OrderRecord F)) :
    (replay T records).resting = run Resting.step Resting.empty records := by
  rw [replay, resting_run, resting_empty]

end ExecutionEngine

end TradingDesk.Exec
