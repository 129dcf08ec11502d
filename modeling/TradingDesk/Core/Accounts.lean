import Mathlib.Algebra.Group.Basic
import Mathlib.Algebra.Group.Hom.Defs
import TradingDesk.Core.Machine

/-!
# TradingDesk.Core.Accounts

**Double entry for machines.** A state has a balance, and each step credits and debits
amounts that may depend on the state it is made in. Where every step of a run balances, the run
does: what it ends with, and all that was debited, is what it started with and all that was
credited.

Where amounts cancel, the converse holds as well. A run that balances in all its states has no
step that does not.
-/

namespace TradingDesk.Core

variable {σ α ο M : Type*}

section

variable [AddCommMonoid M]

/-- The amounts of all the steps of a run. -/
def total (step : σ → α → ο × σ) (amount : σ → α → M) : σ → List α → M
  | _, [] => 0
  | s, a :: w => amount s a + total step amount (step s a).2 w

/-- What the step leaves and what it debits is what it found and what it credits. -/
def Balances (step : σ → α → ο × σ) (balance : σ → M) (credit debit : σ → α → M) (s : σ) (a : α) :
    Prop :=
  balance (step s a).2 + debit s a = balance s + credit s a

variable {step : σ → α → ο × σ} {amount : σ → α → M}

@[simp] theorem total_nil (s : σ) : total step amount s [] = 0 := rfl

@[simp] theorem total_cons (s : σ) (a : α) (w : List α) :
    total step amount s (a :: w) = amount s a + total step amount (step s a).2 w := rfl

/-- Amounts may be converted one by one or all together. -/
theorem map_total {N : Type*} [AddCommMonoid N] (f : M →+ N) (s : σ) (w : List α) :
    f (total step amount s w) = total step (fun s a => f (amount s a)) s w := by
  induction w generalizing s with
  | nil => exact f.map_zero
  | cons a w ih => rw [total_cons, total_cons, f.map_add, ih]

variable {balance : σ → M} {credit debit : σ → α → M}

/-- **The balance of a run.** -/
theorem balance_run {s : σ} {w : List α} (h : Along step (Balances step balance credit debit) s w) :
    balance (run step s w) + total step debit s w = balance s + total step credit s w := by
  induction w generalizing s with
  | nil => rfl
  | cons a w ih =>
      have hstep : balance (step s a).2 + debit s a = balance s + credit s a := h.1
      calc balance (run step (step s a).2 w) + (debit s a + total step debit (step s a).2 w)
          = balance (run step (step s a).2 w) + total step debit (step s a).2 w + debit s a := by
            rw [add_comm (debit s a), add_assoc]
        _ = balance (step s a).2 + debit s a + total step credit (step s a).2 w := by
            rw [ih h.2, add_right_comm]
        _ = balance s + (credit s a + total step credit (step s a).2 w) := by
            rw [hstep, add_assoc]

end

/-- **A run balances in all its states exactly if all its steps do.** -/
theorem balance_iff_along [AddCancelCommMonoid M] {step : σ → α → ο × σ} {balance : σ → M}
    {credit debit : σ → α → M} {s : σ} {w : List α} :
    (∀ pre post, w = pre ++ post →
        balance (run step s pre) + total step debit s pre = balance s + total step credit s pre) ↔
      Along step (Balances step balance credit debit) s w := by
  constructor
  · intro h
    induction w generalizing s with
    | nil => exact trivial
    | cons a w ih =>
        have hfirst : balance (step s a).2 + debit s a = balance s + credit s a := by
          have hpre := h [a] w rfl
          rwa [total_cons, total_cons, total_nil, total_nil, add_zero, add_zero] at hpre
        refine ⟨hfirst, ih fun pre post hw => ?_⟩
        have hpre := h (a :: pre) post (by rw [hw, List.cons_append])
        rw [run_cons, total_cons, total_cons] at hpre
        -- the first step is taken off both sides
        refine @add_right_cancel _ _ _ _ (debit s a) _ ?_
        calc balance (run step (step s a).2 pre) + total step debit (step s a).2 pre + debit s a
            = balance s + (credit s a + total step credit (step s a).2 pre) := by
              rw [add_assoc, add_comm (total step debit (step s a).2 pre), hpre]
          _ = balance (step s a).2 + total step credit (step s a).2 pre + debit s a := by
              rw [← add_assoc, ← hfirst, add_right_comm]
  · rintro h pre post rfl
    exact balance_run h.of_append

end TradingDesk.Core
