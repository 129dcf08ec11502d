import TradingDesk.Exec.Resting

/-!
# TradingDesk.Exec.Volume

**What the engine does not check.** `run_order` subtracts shares without looking
whether the order has that many, and inserts orders without looking whether the
reference is free. Two laws of the feed depend on that: executions and cancels
never create volume, and a record that succeeds was applied. Both are stated here
for every reachable state, with the exact condition under which the engine meets
them.
-/

namespace TradingDesk.Exec

open TradingDesk.Core
open ExecutionEngine (replay runOrder)

variable {T F : Type} [UnorderedMap T UInt64 Order] [DoubleArith F]

/-! ### Executions and cancels -/

/-- Subtracting more than an order has leaves it with more than it had. -/
theorem Order.reduce_of_lt {o : Order} {n : UInt32} (h : o.shares.toNat < n.toNat) :
    ∃ o', o.reduce n = some o' ∧ o.shares.toNat < o'.shares.toNat := by
  have hsub : (o.shares - n).toNat = 2 ^ 32 - n.toNat + o.shares.toNat := by
    have := n.toNat_lt
    rw [UInt32.toNat_sub, Nat.mod_eq_of_lt (by omega)]
  have hpos : o.shares - n ≠ 0 := by
    rw [ne_eq, ← UInt32.toNat_inj, hsub]
    have := n.toNat_lt
    simp only [UInt32.toNat_zero]
    omega
  refine ⟨{ o with shares := o.shares - n }, if_neg hpos, ?_⟩
  have := n.toNat_lt
  simp only [hsub]
  omega

/-- After the record no order has more shares than before, and what is left of the
order it hits is what was there less the record's shares, in the natural numbers. -/
def NoVolumeCreated (e : ExecutionEngine T) (r : OrderRecord F) : Prop :=
  (∀ s ref o', (e.runOrder r).2.resting s ref = some o' →
    ∃ o, e.resting s ref = some o ∧ o'.shares.toNat ≤ o.shares.toNat) ∧
  ∀ s o, e.resting.hit r.reference = some (s, o) →
    ∀ o', (e.runOrder r).2.resting s r.reference = some o' →
      o'.shares.toNat + r.shares.toNat = o.shares.toNat

/-- The order the record hits, if any, has the shares the record takes. -/
def Covered (e : ExecutionEngine T) (r : OrderRecord F) : Prop :=
  ∀ s o, e.resting.hit r.reference = some (s, o) → r.shares.toNat ≤ o.shares.toNat

theorem noVolumeCreated_iff_covered (e : ExecutionEngine T) {r : OrderRecord F}
    (hr : r.action = .reduce) : NoVolumeCreated e r ↔ Covered e r := by
  unfold NoVolumeCreated Covered
  rw [ExecutionEngine.resting_runOrder]
  have heff := e.resting.step_effect r
  generalize e.resting.step r = out at heff
  cases heff with
  | add ha => simp [hr] at ha
  | delete hd => simp [hr] at hd
  | replace hu => simp [hr] at hu
  | miss ha hmiss =>
      have hmiss : e.resting.hit r.reference = none := by simpa [hr] using hmiss
      refine ⟨fun _ s o hhit => ?_, fun _ => ⟨fun s ref o' ho' => ⟨o', ho', le_rfl⟩, ?_⟩⟩
      · simp [hmiss] at hhit
      · intro s o hhit
        simp [hmiss] at hhit
  | @reduce s₀ o₀ _ hhit =>
      have hrest := Resting.eq_some_of_hit hhit
      dsimp only
      constructor
      · rintro ⟨hle, -⟩ s o hhit'
        obtain ⟨rfl, rfl⟩ : s₀ = s ∧ o₀ = o := by simpa [hhit] using hhit'
        -- the subtraction wraps to more than there was
        by_contra hlt
        obtain ⟨o', ho', hgt⟩ := Order.reduce_of_lt (Nat.lt_of_not_le hlt)
        obtain ⟨o₁, ho₁, hbound⟩ := hle s₀ r.reference o' (by rw [Resting.set_self, ho'])
        obtain rfl : o₀ = o₁ := by simpa [hrest] using ho₁
        omega
      · intro hcov
        have hle := hcov s₀ o₀ hhit
        refine ⟨fun s ref o' ho' => ?_, fun s o hhit' o' ho' => ?_⟩
        · rw [Resting.set_apply] at ho'
          by_cases hkey : s = s₀ ∧ ref = r.reference
          · obtain ⟨rfl, rfl⟩ := hkey
            rw [if_pos ⟨rfl, rfl⟩, Order.reduce_eq_some hle] at ho'
            exact ⟨o₀, hrest, by omega⟩
          · rw [if_neg hkey] at ho'
            exact ⟨o', ho', le_rfl⟩
        · obtain ⟨rfl, rfl⟩ : s₀ = s ∧ o₀ = o := by simpa [hhit] using hhit'
          rw [Resting.set_self, Order.reduce_eq_some hle] at ho'
          exact ho'.2.1

/-- **Executions and cancels create no volume exactly where they are covered.** In
every reachable state an execute or cancel creates no volume if and only if the
order it hits has the shares it takes; hence in every run whose executes and
cancels are all covered, none of them creates volume. -/
theorem reduce_creates_no_volume_iff (T : Type) [UnorderedMap T UInt64 Order]
    (h : List (OrderRecord F)) :
    (∀ r : OrderRecord F, r.action = .reduce →
      (NoVolumeCreated (replay T h) r ↔ Covered (replay T h) r)) ∧
    (Along runOrder (fun e r => r.action = .reduce → Covered e r)
        (ExecutionEngine.empty : ExecutionEngine T) h →
      Along runOrder (fun e r => r.action = .reduce → NoVolumeCreated e r)
        (ExecutionEngine.empty : ExecutionEngine T) h) := by
  refine ⟨fun r hr => noVolumeCreated_iff_covered _ hr, ?_⟩
  refine Along.mono fun e r hcov hr => ?_
  exact (noVolumeCreated_iff_covered e hr).mpr (hcov hr)

/-- An execution of eleven shares of an order of ten leaves an order of almost
`2 ^ 32` shares. -/
theorem overdrawn_execution_creates_volume :
    let add : OrderRecord Rat := ⟨1, 0, 10, 1, 'A'.toUInt8, true⟩
    let execute : OrderRecord Rat := ⟨1, 0, 11, 0, 'E'.toUInt8, false⟩
    let e := replay (AssocList UInt64 Order) [add]
    execute.action = .reduce ∧
      (e.runOrder execute).2.resting .buy 1 = some ⟨1000, 4294967295⟩ ∧
      ¬ NoVolumeCreated e execute := by
  intro add execute e
  have hr : execute.action = .reduce := by decide
  refine ⟨hr, by decide +kernel, ?_⟩
  rw [noVolumeCreated_iff_covered e hr]
  intro hcov
  exact absurd (hcov .buy ⟨1000, 10⟩ (by decide +kernel)) (by decide)

/-! ### Adds and replaces -/

/-- If the record succeeds, what it introduces rests afterwards as the record says,
and what it replaces is gone. -/
def Applied (e : ExecutionEngine T) (r : OrderRecord F) : Prop :=
  (e.runOrder r).1 = true →
    (r.action = .add → (e.runOrder r).2.resting r.side r.reference = some r.order) ∧
    (r.action = .replace → ∀ s o, e.resting.hit r.reference = some (s, o) →
      (e.runOrder r).2.resting s r.newReference = some r.order ∧
        (r.newReference ≠ r.reference → (e.runOrder r).2.resting s r.reference = none))

/-- The reference the record introduces is free on the side it goes to, or holds
just the order that is introduced. A replace frees the reference it replaces. -/
def Unoccupied (e : ExecutionEngine T) (r : OrderRecord F) : Prop :=
  (r.action = .add → ∀ o, e.resting r.side r.reference = some o → o = r.order) ∧
  (r.action = .replace → ∀ s o, e.resting.hit r.reference = some (s, o) →
    r.newReference ≠ r.reference → ∀ o', e.resting s r.newReference = some o' → o' = r.order)

/-- `emplace` stores the order exactly if the reference is free or holds it. -/
theorem Resting.add_self_eq_iff (b : Resting) (s : Side) (ref : UInt64) (o : Order) :
    b.add s ref o s ref = some o ↔ ∀ o', b s ref = some o' → o' = o := by
  rw [Resting.add, Resting.set_self]
  cases b s ref <;> simp

theorem applied_iff_unoccupied (e : ExecutionEngine T) {r : OrderRecord F}
    (hr : r.action = .add ∨ r.action = .replace) : Applied e r ↔ Unoccupied e r := by
  unfold Applied Unoccupied
  rw [ExecutionEngine.resting_runOrder, ExecutionEngine.runOrder_fst]
  have heff := e.resting.step_effect r
  generalize e.resting.step r = out at heff
  cases heff with
  | reduce hc | delete hc => simp [hc] at hr
  | miss ha hmiss =>
      have hmiss : e.resting.hit r.reference = none := by
        rcases hmiss with hu | hmiss
        · simp [hu] at hr
        · exact hmiss
      simp [ha, hmiss]
  | add ha => simp [ha, Resting.add_self_eq_iff]
  | @replace s₀ o₀ hu hhit =>
      simp only [hu, hhit, Option.some.injEq, Prod.mk.injEq, reduceCtorEq, false_imp_iff, true_and,
        forall_const, and_imp]
      refine forall_congr' fun s => forall_congr' fun o => forall_congr' fun hs =>
        forall_congr' fun _ => ?_
      subst hs
      rw [Resting.add_self_eq_iff]
      -- a replace by its own reference finds it freed by the erase
      by_cases hnew : r.newReference = r.reference
      · simp [hnew]
      · have hkeep : (e.resting.set s₀ r.reference none) s₀ r.newReference
            = e.resting s₀ r.newReference := Resting.set_of_ne _ _ hnew
        have hgone : ((e.resting.set s₀ r.reference none).add s₀ r.newReference r.order) s₀
            r.reference = none := by
          rw [Resting.add, Resting.set_of_ne _ _ (Ne.symm hnew), Resting.set_self]
        simp [hnew, hkeep, hgone]

/-- **Success means applied exactly where the introduced reference is unoccupied.**
In every reachable state an add or replace that returns `true` was applied if and
only if the reference it introduces is free or already holds that order; hence in
every run whose adds and replaces all meet this, each of them that is not counted
as missed was applied. -/
theorem success_means_applied_iff (T : Type) [UnorderedMap T UInt64 Order]
    (h : List (OrderRecord F)) :
    (∀ r : OrderRecord F, r.action = .add ∨ r.action = .replace →
      (Applied (replay T h) r ↔ Unoccupied (replay T h) r)) ∧
    (Along runOrder (fun e r => r.action = .add ∨ r.action = .replace → Unoccupied e r)
        (ExecutionEngine.empty : ExecutionEngine T) h →
      Along runOrder (fun e r => r.action = .add ∨ r.action = .replace → Applied e r)
        (ExecutionEngine.empty : ExecutionEngine T) h) := by
  refine ⟨fun r hr => applied_iff_unoccupied _ hr, ?_⟩
  refine Along.mono fun e r hfree hr => ?_
  exact (applied_iff_unoccupied e hr).mpr (hfree hr)

/-- A replacement under a reference that already rests is lost, with the order it
replaces, and `run_order` reports success. -/
theorem replacement_lost_silently :
    let orders : List (OrderRecord Rat) :=
      [⟨1, 0, 10, 1, 'A'.toUInt8, true⟩, ⟨2, 0, 20, 2, 'A'.toUInt8, true⟩]
    let replace : OrderRecord Rat := ⟨1, 2, 30, 3, 'U'.toUInt8, false⟩
    let e := replay (AssocList UInt64 Order) orders
    replace.action = .replace ∧ (e.runOrder replace).1 = true ∧
      (e.runOrder replace).2.resting .buy 2 = some ⟨2000, 20⟩ ∧
      (e.runOrder replace).2.resting .buy 1 = none ∧ ¬ Applied e replace := by
  intro orders replace e
  have hr : replace.action = .replace := by decide
  refine ⟨hr, by decide +kernel, by decide +kernel, by decide +kernel, ?_⟩
  rw [applied_iff_unoccupied e (Or.inr hr)]
  intro hfree
  have := hfree.2 hr .buy ⟨1000, 10⟩ (by decide +kernel) (by decide) ⟨2000, 20⟩ (by decide +kernel)
  exact absurd this (by decide +kernel)

end TradingDesk.Exec
