import Mathlib.Algebra.Order.Field.Basic
import Mathlib.Algebra.Order.Field.Rat
import Mathlib.Tactic.NormNum
import TradingDesk.Core.Decimal

/-!
# TradingDesk.Utils.HumanizeNumber

**Numbers for humans** (`humanize_number.cpp`): a number is divided by `thousands` until it
is less than that, and written with the unit of the stage it has come to. Values are exact
rationals. The loop stops behind the last unit as well, where there is none for the stage.
-/

namespace TradingDesk.Utils

open TradingDesk.Core

/-- `units`. -/
def units : List (List UInt8) :=
  [" ", " Ki", " Mi", " Gi", " Ti", " Pi", " Ei", " Zi", " iY"].map ascii

theorem length_units : units.length = 9 := rfl

/-- The scaling loop. -/
def scale (thousands val : ℚ) (stage : ℕ) : ℚ × ℕ :=
  if thousands ≤ val ∧ stage < units.length then scale thousands (val / thousands) (stage + 1)
  else (val, stage)
termination_by units.length - stage

/-- `max_unit_length`. -/
def maxUnitLength : ℕ := 25

/-- `humanize_number`. What Karma writes for a number is a parameter, without a result where it
fails to; a failed assert, or an access behind the table, is `none`. -/
def humanizeNumber (double : ℚ → Option (List UInt8)) (n : UInt64) (unit : List UInt8)
    (thousands : ℚ) : Option (List UInt8) :=
  if ¬ 0 < thousands then none
  else if maxUnitLength < unit.length then some []
  else
    let (val, stage) := scale thousands n.toNat 0
    units[stage]?.map fun u => (double val).elim [] (· ++ u ++ unit)

/-! ### The loop -/

/-- **Run lemma.** After `k` divisions, none of which was by more than the value, either the value
is small or the units are used up. -/
theorem scale_spec (thousands val : ℚ) {stage : ℕ} (hstage : stage ≤ units.length) :
    ∃ k, scale thousands val stage = (val / thousands ^ k, stage + k) ∧
      stage + k ≤ units.length ∧ (∀ j < k, thousands ≤ val / thousands ^ j) ∧
      (val / thousands ^ k < thousands ∨ stage + k = units.length) := by
  induction val, stage using scale.induct thousands with
  | case1 val stage h ih =>
      obtain ⟨k, heq, hle, hdivs, hstop⟩ := ih h.2
      have hdiv : ∀ j, val / thousands / thousands ^ j = val / thousands ^ (j + 1) := fun j => by
        rw [div_div, pow_succ']
      have hstage' : stage + 1 + k = stage + (k + 1) := by omega
      rw [hdiv, hstage'] at heq hstop
      refine ⟨k + 1, by rw [scale, if_pos h, heq], by omega, fun j hj => ?_, hstop⟩
      cases j with
      | zero =>
          rw [pow_zero, div_one]
          exact h.1
      | succ j =>
          rw [← hdiv]
          exact hdivs j (Nat.lt_of_succ_lt_succ hj)
  | case2 val stage h =>
      refine ⟨0, by rw [scale, if_neg h, pow_zero, div_one, Nat.add_zero], hstage,
        fun j hj => absurd hj (Nat.not_lt_zero j), ?_⟩
      rw [pow_zero, div_one]
      by_cases hval : thousands ≤ val
      · exact Or.inr (Nat.le_antisymm hstage (not_lt.mp fun hlt => h ⟨hval, hlt⟩))
      · exact Or.inl (not_le.mp hval)

/-- A unit is left for the stage if and only if some power reaches above the value. -/
theorem scale_lt_iff {thousands : ℚ} (h : 0 < thousands) (val : ℚ) :
    (scale thousands val 0).2 < units.length ↔
      ∃ k < units.length, val < thousands ^ (k + 1) := by
  obtain ⟨k, heq, -, hdivs, hstop⟩ := scale_spec thousands val (Nat.zero_le _)
  rw [Nat.zero_add] at heq hstop
  rw [heq]
  constructor
  · intro hk
    refine ⟨k, hk, ?_⟩
    rcases hstop with hsmall | hend
    · rwa [div_lt_iff₀ (pow_pos h k), ← pow_succ'] at hsmall
    · exact absurd hend hk.ne
  · rintro ⟨j, hj, hlt⟩
    refine lt_of_le_of_lt (not_lt.mp fun hjk => ?_) hj
    have hle := hdivs j hjk
    rw [le_div_iff₀ (pow_pos h j), ← pow_succ'] at hle
    exact absurd hlt (not_lt.mpr hle)

/-- Of the powers of a number, the first or the last one is the largest. -/
theorem exists_lt_pow_iff {t : ℚ} (h : 0 < t) (val : ℚ) (n : ℕ) :
    (∃ k < n + 1, val < t ^ (k + 1)) ↔ val < max t (t ^ (n + 1)) := by
  rw [lt_max_iff]
  constructor
  · rintro ⟨k, hk, hlt⟩
    rcases le_total 1 t with ht | ht
    · exact Or.inr (hlt.trans_le (pow_le_pow_right₀ ht hk))
    · exact Or.inl (hlt.trans_le (pow_le_of_le_one h.le ht (Nat.succ_ne_zero k)))
  · rintro (hlt | hlt)
    · exact ⟨0, Nat.succ_pos n, by rwa [Nat.zero_add, pow_one]⟩
    · exact ⟨n, Nat.lt_succ_self n, hlt⟩

/-- **The stage that indexes the table.** The loop always ends, and the stage is that of a unit
exactly for the numbers below `thousands` or below its ninth power. -/
theorem humanize_stage_le_iff (n : UInt64) {thousands : ℚ} (h : 0 < thousands) :
    (scale thousands n.toNat 0).2 ≤ 8 ↔ (n.toNat : ℚ) < max thousands (thousands ^ 9) := by
  rw [← exists_lt_pow_iff h n.toNat 8, ← Nat.lt_succ_iff]
  exact scale_lt_iff h n.toNat

/-- The default of 1024 is large enough for every number. -/
theorem humanize_stage_le_default :
    (scale 1024 (18446744073709551615 : UInt64).toNat 0).2 ≤ 8 :=
  (humanize_stage_le_iff 18446744073709551615 (by norm_num)).mpr (by decide +kernel)

/-- A call with a short unit is undefined exactly if there is no unit for the stage. -/
theorem humanizeNumber_isSome_iff (double : ℚ → Option (List UInt8)) (n : UInt64)
    {unit : List UInt8} {thousands : ℚ} (h : 0 < thousands) (hunit : unit.length ≤ maxUnitLength) :
    (humanizeNumber double n unit thousands).isSome ↔ (scale thousands n.toNat 0).2 ≤ 8 := by
  rw [humanizeNumber, if_neg (not_not.mpr h), if_neg (not_lt.mpr hunit)]
  simp only [Option.isSome_map, isSome_getElem?, length_units, Nat.lt_succ_iff]

/-- Halving the largest number nine times is not enough. -/
theorem humanize_halves_leave_table :
    (scale 2 (18446744073709551615 : UInt64).toNat 0).2 = 9 ∧
      humanizeNumber (fun _ => some []) 18446744073709551615 (ascii "B") 2 = none := by
  have hstage : (scale 2 (18446744073709551615 : UInt64).toNat 0).2 = 9 := by
    have hlarge : ¬ (scale 2 (18446744073709551615 : UInt64).toNat 0).2 < units.length := by
      rw [scale_lt_iff (by norm_num), length_units, exists_lt_pow_iff (by norm_num)]
      decide +kernel
    obtain ⟨k, heq, hle, -⟩ :=
      scale_spec 2 (18446744073709551615 : UInt64).toNat (Nat.zero_le units.length)
    rw [heq] at hlarge ⊢
    exact Nat.le_antisymm hle (not_lt.mp hlarge)
  refine ⟨hstage, Option.not_isSome_iff_eq_none.mp fun hsome => ?_⟩
  rw [humanizeNumber_isSome_iff _ _ (by norm_num) (by decide), hstage] at hsome
  exact absurd hsome (by decide)

end TradingDesk.Utils
