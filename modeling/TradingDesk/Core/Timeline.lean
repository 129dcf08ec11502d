import Mathlib.Data.List.Basic
import Mathlib.Order.Lattice

/-!
# TradingDesk.Core.Timeline

**Logs sorted by time.** `between key log first last` are the entries of a log from
`first` on and before `last`, in order. On a sorted log, reading up to one instant
and from there to a later one is reading through to the later one.
-/

namespace TradingDesk.Core

variable {τ α : Type*} [LinearOrder τ]

/-- The entries with `first ≤ key` and `key < last`. -/
def between (key : α → τ) (log : List α) (first last : τ) : List α :=
  log.filter fun x => decide (first ≤ key x) && decide (key x < last)

section

variable {key : α → τ} {log : List α} {first middle last : τ}

theorem mem_between {x : α} : x ∈ between key log first last ↔
    x ∈ log ∧ first ≤ key x ∧ key x < last := by
  simp [between]

theorem between_eq_nil (h : ∀ x ∈ log, ¬ (first ≤ key x ∧ key x < last)) :
    between key log first last = [] := by
  rw [between, List.filter_eq_nil_iff]
  intro x hx
  simpa using h x hx

theorem pairwise_between (h : log.Pairwise fun x y => key x ≤ key y) (first last : τ) :
    (between key log first last).Pairwise fun x y => key x ≤ key y := h.filter _

/-- **Splitting a read.** -/
theorem between_append (hsorted : log.Pairwise fun x y => key x ≤ key y) (h₁ : first ≤ middle)
    (h₂ : middle ≤ last) :
    between key log first last = between key log first middle ++ between key log middle last := by
  induction log with
  | nil => rfl
  | cons x log ih =>
      obtain ⟨hx, hlog⟩ := List.pairwise_cons.mp hsorted
      have ih := ih hlog
      unfold between at ih ⊢
      by_cases hm : key x < middle
      · -- before the middle: `x` is read first, or not at all
        have hnot : ¬ middle ≤ key x := not_le.mpr hm
        by_cases hf : first ≤ key x
        · simp [hf, hm, hnot, lt_of_lt_of_le hm h₂, ih]
        · simp [hf, hnot, ih]
      · -- from the middle on: so are all later entries
        have hge : middle ≤ key x := not_lt.mp hm
        have hnone : between key log first middle = [] := by
          refine between_eq_nil fun y hy hc => ?_
          exact absurd (le_trans hge (hx y hy)) (not_le.mpr hc.2)
        unfold between at hnone
        rw [hnone, List.nil_append] at ih
        simp only [List.filter_cons, hm, hge, le_trans h₁ hge, decide_true, decide_false,
          Bool.and_false, Bool.true_and, Bool.false_eq_true, if_false, hnone, List.nil_append, ih]

end

end TradingDesk.Core
