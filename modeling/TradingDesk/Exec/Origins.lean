import TradingDesk.Exec.Capacity

/-!
# TradingDesk.Exec.Origins

**Where the orders of an engine come from.** A record enters an order under one reference at
one price, and later records take shares from it or remove it; nothing else moves an order to
another reference or changes its price. So what rests after a run rested before it at the
same price, or one of its records entered it. This survives the encoding of the state, unlike
the log that led to it.
-/

namespace TradingDesk.Exec

open TradingDesk.Core
open ExecutionEngine (runOrder)
open UnorderedMap (find? size)

variable {F : Type} [DoubleArith F]

/-- The record enters an order of this price under this reference. -/
def OrderRecord.Enters (r : OrderRecord F) (ref : UInt64) (price : UInt32) : Prop :=
  (r.action = .add ∨ r.action = .replace) ∧ r.introduced = ref ∧ r.order.price = price

namespace Resting

theorem price_of_add {b : Resting} {s s' : Side} {ref ref' : UInt64} {o o' : Order}
    (h : b.add s ref o s' ref' = some o') :
    b s' ref' = some o' ∨ ref' = ref ∧ o' = o := by
  rw [add, set_apply] at h
  by_cases hat : s' = s ∧ ref' = ref
  · obtain ⟨rfl, rfl⟩ := hat
    rw [if_pos ⟨rfl, rfl⟩] at h
    cases hb : b s' ref' with
    | none =>
        rw [hb] at h
        exact Or.inr ⟨rfl, (Option.some.inj h).symm⟩
    | some o₀ =>
        rw [hb] at h
        exact Or.inl h
  · rw [if_neg hat] at h
    exact Or.inl h

theorem price_of_reduce {o o' : Order} {n : UInt32} (h : o.reduce n = some o') :
    o'.price = o.price := by
  unfold Order.reduce at h
  split at h
  · cases h
  · cases h
    rfl

/-- **Step lemma.** An order has its price and its reference from before, or from the record. -/
theorem origin_step {b : Resting} {r : OrderRecord F} {s : Side} {ref : UInt64} {o : Order}
    (h : (b.step r).2 s ref = some o) :
    (∃ o₀, b s ref = some o₀ ∧ o₀.price = o.price) ∨ r.Enters ref o.price := by
  have heff := b.step_effect r
  generalize b.step r = out at h heff
  cases heff with
  | add hr =>
      rcases price_of_add h with hb | ⟨rfl, rfl⟩
      · exact Or.inl ⟨o, hb, rfl⟩
      · exact Or.inr ⟨Or.inl hr, if_neg (by simp [hr]), rfl⟩
  | @reduce s' o' hr hhit =>
      change b.set s' r.reference _ s ref = _ at h
      rw [set_apply] at h
      split at h
      · rename_i hat
        obtain ⟨rfl, rfl⟩ := hat
        exact Or.inl ⟨o', eq_some_of_hit hhit, (price_of_reduce h).symm⟩
      · exact Or.inl ⟨o, h, rfl⟩
  | delete hr hhit => exact Or.inl ⟨o, (set_none_eq_some.mp h).1, rfl⟩
  | replace hr hhit =>
      rcases price_of_add h with hb | ⟨rfl, rfl⟩
      · exact Or.inl ⟨o, (set_none_eq_some.mp hb).1, rfl⟩
      · exact Or.inr ⟨Or.inr hr, if_pos hr, rfl⟩
  | miss _ _ => exact Or.inl ⟨o, h, rfl⟩

end Resting

variable {T : Type} [UnorderedMap T UInt64 Order]

/-- Every order at rest was entered by one of the records, under its reference and at its price. -/
def ExecutionEngine.EnteredBy (e : ExecutionEngine T) (records : List (OrderRecord F)) : Prop :=
  ∀ s ref o, e.resting s ref = some o → ∃ r ∈ records, r.Enters ref o.price

namespace ExecutionEngine.EnteredBy

variable {e : ExecutionEngine T} {records more : List (OrderRecord F)}

theorem empty (records : List (OrderRecord F)) :
    (ExecutionEngine.empty : ExecutionEngine T).EnteredBy records := by
  intro s ref o h
  rw [resting_empty] at h
  cases h

theorem mono (h : e.EnteredBy records) (hsub : records ⊆ more) : e.EnteredBy more := by
  intro s ref o hrest
  obtain ⟨r, hr, henters⟩ := h s ref o hrest
  exact ⟨r, hsub hr, henters⟩

theorem congr {e' : ExecutionEngine T} (h : e.EnteredBy records) (hsame : e'.SameOrders e) :
    e'.EnteredBy records := by
  intro s ref o hrest
  rw [sameOrders_iff.mp hsame] at hrest
  exact h s ref o hrest

theorem step (h : e.EnteredBy records) {r : OrderRecord F} (hr : r ∈ records) :
    (e.runOrder r).2.EnteredBy records := by
  intro s ref o hrest
  rw [resting_runOrder] at hrest
  rcases Resting.origin_step hrest with ⟨o₀, hrest₀, hprice⟩ | henters
  · rw [← hprice]
    exact h s ref o₀ hrest₀
  · exact ⟨r, hr, henters⟩

/-- **Run lemma.** -/
theorem run (h : e.EnteredBy records) {log : List (OrderRecord F)} (hlog : log ⊆ records) :
    (Core.run runOrder e log).EnteredBy records := by
  induction log generalizing e with
  | nil => exact h
  | cons r log ih =>
      obtain ⟨hr, hlog⟩ := List.cons_subset.mp hlog
      exact ih (h.step hr) hlog

/-- An engine of few enough records can be encoded. -/
theorem fitsSizeT (h : e.EnteredBy records) (hlen : records.length < 2 ^ 58) : e.FitsSizeT := by
  have hside : ∀ s, size (e.side s) ≤ records.length := by
    intro s
    have hkeys : ∀ ref, (find? (e.side s) ref).isSome →
        ref ∈ records.map OrderRecord.introduced := by
      intro ref href
      obtain ⟨o, ho⟩ := Option.isSome_iff_exists.mp href
      obtain ⟨r, hr, -, hintroduced, -⟩ := h s ref o ho
      exact List.mem_map.mpr ⟨r, hr, hintroduced⟩
    simpa using size_le_of_keys hkeys
  have hbuy : size e.allBuyOrders ≤ records.length := hside .buy
  have hsell : size e.allSellOrders ≤ records.length := hside .sell
  unfold FitsSizeT
  omega

end ExecutionEngine.EnteredBy

end TradingDesk.Exec
