import TradingDesk.Exec.Resting

/-!
# TradingDesk.Exec.Sides

**On which side a reference rests.** Executions, cancels, deletions and replacements look
a reference up on the buying side first and take what they find there, so they hit the
right order only if no reference rests on both sides. Nothing in the engine sees to
that: an order is inserted on its own side without a look at the other. It is the feed
that hands out every reference once, and `one_side_iff` says what exactly has to hold of
a sequence of records.
-/

namespace TradingDesk.Exec

open TradingDesk.Core
open UnorderedMap (find?)
open ExecutionEngine (replay runOrder)

/-- The opposite side. -/
def Side.other : Side → Side
  | .buy => .sell
  | .sell => .buy

theorem Side.other_ne (s : Side) : s.other ≠ s := by
  cases s <;> simp [Side.other]

theorem Side.eq_or_eq_other (s s' : Side) : s' = s ∨ s' = s.other ∧ s = s'.other := by
  cases s <;> cases s' <;> simp [Side.other]

namespace Resting

/-- No reference rests on both sides. -/
def OneSided (b : Resting) : Prop := ∀ s ref, b s ref = none ∨ b s.other ref = none

theorem oneSided_empty : OneSided empty := fun _ _ => Or.inl rfl

theorem OneSided.other_eq_none {b : Resting} (h : b.OneSided) {s : Side} {ref : UInt64} {o : Order}
    (ho : b s ref = some o) : b s.other ref = none := by
  rcases h s ref with hs | hs
  · rw [ho] at hs
    cases hs
  · exact hs

/-- Writing a reference keeps references to one side, if nothing is written or nothing
rests under it on the other side. -/
theorem OneSided.set {b : Resting} (h : b.OneSided) {s : Side} {ref : UInt64} {o : Option Order}
    (hfree : o = none ∨ b s.other ref = none) : (b.set s ref o).OneSided := by
  intro s' ref'
  by_cases href : ref' = ref
  · subst href
    have hother : b.set s ref' o s.other ref' = b s.other ref' := by
      rw [set_apply, if_neg fun hc => s.other_ne hc.1]
    -- one of the two sides is the written one
    rcases s.eq_or_eq_other s' with rfl | ⟨rfl, heq⟩
    · rw [set_self, hother]
      exact hfree
    · rw [← heq, set_self, hother]
      exact hfree.symm
  · rw [set_of_ne b o href, set_of_ne b o href]
    exact h s' ref'

/-- An order that is introduced keeps references to one side exactly if nothing rests
under its reference on the other side. -/
theorem OneSided.add_iff {b : Resting} (h : b.OneSided) {s : Side} {ref : UInt64} {o : Order} :
    (b.add s ref o).OneSided ↔ b s.other ref = none := by
  constructor
  · intro hadd
    have hother := hadd.other_eq_none (set_self b s ref (some ((b s ref).getD o)))
    rwa [add, set_apply, if_neg fun hc => s.other_ne hc.1] at hother
  · intro hfree
    exact h.set (Or.inr hfree)

variable {F : Type} [DoubleArith F]

/-- Where a record comes to insert an order, and under which reference. A replacement
goes to the side of the order it replaces. -/
def insertsAt (b : Resting) (r : OrderRecord F) : Option (Side × UInt64) :=
  match r.action with
  | .add => some (r.side, r.reference)
  | .replace => (b.hit r.reference).map fun hit => (hit.1, r.newReference)
  | _ => none

/-- If the record inserts an order, nothing rests under its reference on the other
side. -/
def OtherSideFree (b : Resting) (r : OrderRecord F) : Prop :=
  ∀ s ref, b.insertsAt r = some (s, ref) → b s.other ref = none

/-- **Step lemma.** A record keeps references to one side exactly if it inserts none that
rests on the other. -/
theorem oneSided_step {b : Resting} (h : b.OneSided) (r : OrderRecord F) :
    (b.step r).2.OneSided ↔ b.OtherSideFree r := by
  unfold OtherSideFree insertsAt
  have heff := b.step_effect r
  generalize b.step r = out at heff
  cases heff with
  | add hr =>
      simp only [hr]
      constructor
      · rintro hadd s ref heq
        obtain ⟨rfl, rfl⟩ : r.side = s ∧ r.reference = ref := by simpa using heq
        exact h.add_iff.mp hadd
      · intro hfree
        exact h.add_iff.mpr (hfree r.side r.reference rfl)
  | @reduce s o hr hhit =>
      refine iff_of_true (h.set (Or.inr (h.other_eq_none (eq_some_of_hit hhit)))) ?_
      simp [hr]
  | @delete s o hr hhit =>
      refine iff_of_true (h.set (Or.inl rfl)) ?_
      simp [hr]
  | @replace s o hr hhit =>
      -- the order is erased first, which frees its reference but not the new one
      have hgone : (b.set s r.reference none).OneSided := h.set (Or.inl rfl)
      have hother : (b.set s r.reference none) s.other r.newReference
          = b s.other r.newReference := by
        rw [set_apply, if_neg fun hc => s.other_ne hc.1]
      simp only [hr, hhit, Option.map_some]
      constructor
      · rintro hadd s' ref heq
        obtain ⟨rfl, rfl⟩ : s = s' ∧ r.newReference = ref := by simpa using heq
        rw [← hother]
        exact hgone.add_iff.mp hadd
      · intro hfree
        exact hgone.add_iff.mpr (hother.trans (hfree s r.newReference rfl))
  | miss hr hmiss =>
      refine iff_of_true h ?_
      rcases hmiss with hu | hmiss
      · simp [hu]
      · cases ha : r.action <;> simp_all

end Resting

variable {T F : Type} [UnorderedMap T UInt64 Order] [DoubleArith F]

/-- No reference is a key of both maps. -/
def ExecutionEngine.OneSided (e : ExecutionEngine T) : Prop :=
  ∀ ref, find? e.allBuyOrders ref = none ∨ find? e.allSellOrders ref = none

theorem ExecutionEngine.oneSided_iff (e : ExecutionEngine T) : e.OneSided ↔ e.resting.OneSided := by
  constructor
  · intro h s ref
    cases s with
    | buy => exact h ref
    | sell => exact (h ref).symm
  · exact fun h => h .buy

/-- **A reference rests on one side at most, as long as the records see to it.** In every
state of a run no reference is a key of both maps if and only if no record of the run
inserts an order under a reference that rests on the other side. -/
theorem one_side_iff (T : Type) [UnorderedMap T UInt64 Order] (h : List (OrderRecord F)) :
    (∀ pre post, h = pre ++ post → (replay T pre).OneSided) ↔
      Along runOrder (fun e r => e.resting.OtherSideFree r)
        (ExecutionEngine.empty : ExecutionEngine T) h := by
  have hstep : ∀ (e : ExecutionEngine T) (r : OrderRecord F), e.OneSided →
      ((runOrder e r).2.OneSided ↔ e.resting.OtherSideFree r) := by
    intro e r he
    rw [ExecutionEngine.oneSided_iff, ExecutionEngine.resting_runOrder]
    exact Resting.oneSided_step ((ExecutionEngine.oneSided_iff e).mp he) r
  have hempty : (ExecutionEngine.empty : ExecutionEngine T).OneSided := by
    rw [ExecutionEngine.oneSided_iff, ExecutionEngine.resting_empty]
    exact Resting.oneSided_empty
  exact invariant_iff_along hstep hempty

/-- One reference, added on both sides: an execution of the selling order hits the buying
one. -/
theorem reference_on_both_sides :
    let adds : List (OrderRecord Rat) :=
      [⟨1, 0, 10, 1, 'A'.toUInt8, true⟩, ⟨1, 0, 20, 2, 'A'.toUInt8, false⟩]
    let execute : OrderRecord Rat := ⟨1, 0, 5, 0, 'E'.toUInt8, false⟩
    let e := replay (AssocList UInt64 Order) adds
    ¬ e.OneSided ∧ (e.runOrder execute).2.resting .buy 1 = some ⟨1000, 5⟩ ∧
      (e.runOrder execute).2.resting .sell 1 = some ⟨2000, 20⟩ := by
  intro adds execute e
  refine ⟨fun h => ?_, by decide +kernel, by decide +kernel⟩
  exact absurd (h 1) (by decide +kernel)

end TradingDesk.Exec
