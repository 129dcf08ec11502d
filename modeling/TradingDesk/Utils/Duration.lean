import Mathlib.Algebra.Order.Ring.Int
import TradingDesk.Utils.Timespec

/-!
# TradingDesk.Utils.Duration

**Arithmetic of instants is that of their counts of nanoseconds.** On normalised instants
from the epoch on, addition of a duration is addition, subtraction stops at zero, `delta`
is the distance, and no assert fails. That takes durations that are not negative: the
other ones are carried out with casts that truncate towards zero, and what they leave need
not be normalised. `signed_duration_iff` says when it is.
-/

namespace TradingDesk.Utils

namespace Timespec

/-! ### Durations that are not negative -/

/-- Seconds and nanoseconds of a duration that is not negative. -/
theorem tdiv_second {d : Int} (h : 0 ≤ d) : d.tdiv 1000000000 = d / 1000000000 :=
  Int.tdiv_eq_ediv_of_nonneg h

/-- Subtracting a duration that is not negative subtracts its nanoseconds, down to zero. -/
theorem sub_ofTotal (n : Int) {d : Int} (hd : 0 ≤ d) :
    (ofTotal n).sub d = ofTotal (max 0 (n - d)) := by
  simp only [sub, tdiv_second hd, ofTotal, zero]
  by_cases hsec : n / 1000000000 < d / 1000000000
  · -- not even the seconds are there
    have hmax : max 0 (n - d) = 0 := max_eq_left (by omega)
    rw [if_pos hsec, hmax]
    rfl
  · rw [if_neg hsec]
    by_cases hnsec : n % 1000000000 < d - d / 1000000000 * 1000000000
    · rw [if_pos hnsec]
      by_cases hborrow : n / 1000000000 - d / 1000000000 = 0
      · have hmax : max 0 (n - d) = 0 := max_eq_left (by omega)
        rw [if_pos hborrow, hmax]
        rfl
      · have hmax : max 0 (n - d) = n - d := max_eq_right (by omega)
        rw [if_neg hborrow, hmax, mk.injEq]
        omega
    · have hmax : max 0 (n - d) = n - d := max_eq_right (by omega)
      rw [if_neg hnsec, hmax, mk.injEq]
      omega

/-- None of the asserts fails. -/
theorem subAsserts_ofTotal (n : Int) {d : Int} (hd : 0 ≤ d) :
    ∀ a ∈ subAsserts (ofTotal n) d, a = true := by
  simp only [subAsserts, tdiv_second hd, ofTotal]
  split
  · exact fun _ h => absurd h List.not_mem_nil
  · split
    · split
      · simp only [List.mem_singleton, forall_eq, decide_eq_true_eq]
        omega
      · simp only [List.forall_mem_cons, List.not_mem_nil, false_implies, implies_true, and_true,
          decide_eq_true_eq]
        omega
    · simp only [List.forall_mem_cons, List.not_mem_nil, false_implies, implies_true, and_true,
        decide_eq_true_eq]
      omega

section

variable {t : Timespec}

theorem Normalized.add_eq (ht : t.Normalized) {d : Int} (hd : 0 ≤ d) :
    t.add d = ofTotal (t.total + d) := by
  conv_lhs => rw [ht.eq_ofTotal]
  exact add_ofTotal _ hd

theorem Normalized.sub_eq (ht : t.Normalized) {d : Int} (hd : 0 ≤ d) :
    t.sub d = ofTotal (max 0 (t.total - d)) := by
  conv_lhs => rw [ht.eq_ofTotal]
  exact sub_ofTotal _ hd

end

/-- **Addition is exact, subtraction is exact down to zero.** Both leave normalised instants
from the epoch on, no assert of `operator-=` fails, and what was added can be subtracted
again. -/
theorem add_sub_exact {t : Timespec} (ht : t.Normalized) (hsec : 0 ≤ t.sec) {d : Int} (hd : 0 ≤ d) :
    ((t.add d).total = t.total + d ∧ (t.add d).Normalized ∧ 0 ≤ (t.add d).sec) ∧
      ((t.sub d).total = max 0 (t.total - d) ∧ (t.sub d).Normalized ∧ 0 ≤ (t.sub d).sec) ∧
      (∀ a ∈ subAsserts t d, a = true) ∧ (t.add d).sub d = t := by
  have hn := total_nonneg ht hsec
  have hasserts := subAsserts_ofTotal t.total hd
  rw [← ht.eq_ofTotal] at hasserts
  rw [ht.add_eq hd, ht.sub_eq hd]
  refine ⟨⟨total_ofTotal _, normalized_ofTotal _, ?_⟩, ⟨total_ofTotal _, normalized_ofTotal _, ?_⟩,
    hasserts, ?_⟩
  · exact ofTotal_sec_nonneg.mpr (Int.add_nonneg hn hd)
  · exact ofTotal_sec_nonneg.mpr (le_max_left _ _)
  · rw [sub_ofTotal _ hd, Int.add_sub_cancel, max_eq_right hn, ← ht.eq_ofTotal]

/-- Half a second before three, and a duration of one and a half. -/
theorem add_sub_half_seconds :
    ((⟨2, 500000000⟩ : Timespec).add 1500000000).sub 1500000000 = ⟨2, 500000000⟩ :=
  (@add_sub_exact ⟨2, 500000000⟩ ⟨by decide, by decide⟩ (by decide) 1500000000 (by decide)).2.2.2

/-! ### Signed durations -/

/-- The nanoseconds always add up; it is how they are split that may be wrong. -/
theorem total_add (t : Timespec) (d : Int) : (t.add d).total = t.total + d := by
  simp only [add, total]
  omega

theorem add_eq_ofTotal {t : Timespec} {d : Int} (h : (t.add d).Normalized) :
    t.add d = ofTotal (t.total + d) := by
  rw [h.eq_ofTotal, total_add]

/-- A sum is normalised if it is not in front of the second, or at the start of one. -/
theorem normalized_add_iff {t : Timespec} (ht : t.Normalized) (d : Int) :
    (t.add d).Normalized ↔ 0 ≤ t.nsec + d ∨ (t.nsec + d) % 1000000000 = 0 := by
  have hlt := ht.2
  simp only [Normalized, add]
  by_cases hnonneg : 0 ≤ t.nsec + d
  · rw [tdiv_second hnonneg]
    omega
  · -- below zero, the cast truncates upwards
    have hneg : (t.nsec + d).tdiv 1000000000 = -(-(t.nsec + d) / 1000000000) := by
      rw [← Int.tdiv_eq_ediv_of_nonneg (by omega), Int.neg_tdiv, Int.neg_neg]
    rw [hneg]
    omega

/-- Subtracting a negative duration adds seconds and nanoseconds, without a carry, unless the
seconds alone do not lead to the epoch. -/
theorem sub_neg_eq {t : Timespec} (ht : t.Normalized) {d : Int} (hd : 0 ≤ d) :
    t.sub (-d) = if t.sec + d / 1000000000 < 0 then zero
      else ⟨t.sec + d / 1000000000, t.nsec + d % 1000000000⟩ := by
  have h0 := ht.1
  have hdur : (-d).tdiv 1000000000 = -(d / 1000000000) := by rw [Int.neg_tdiv, tdiv_second hd]
  simp only [sub, hdur]
  by_cases hsec : t.sec + d / 1000000000 < 0
  · rw [if_pos (by omega), if_pos hsec]
  · rw [if_neg (by omega), if_neg (by omega), if_neg hsec, mk.injEq]
    omega

/-- The nanoseconds of a duration that is not negative fit into the second, or it leads to the
epoch; a negative one stays within the second, or ends at the start of one. -/
def NoCarry (t : Timespec) (d : Int) : Prop :=
  (0 ≤ d ∧ (t.nsec + d % 1000000000 < 1000000000 ∨ t.total + d = 0)) ∨
    (d < 0 ∧ (0 ≤ t.nsec + d ∨ (t.nsec + d) % 1000000000 = 0))

/-- **When the sign of a duration does not matter.** For every normalised instant and every duration
that does not lead before the epoch, adding the duration and subtracting its negation give the
same normalised instant if and only if there is no carry. -/
theorem signed_duration_iff {t : Timespec} (ht : t.Normalized) {d : Int}
    (hresult : 0 ≤ t.total + d) :
    (t.add d = t.sub (-d) ∧ (t.add d).Normalized) ↔ NoCarry t d := by
  have hnsec := ht.1
  have htotal : t.total = t.sec * 1000000000 + t.nsec := rfl
  rcases lt_or_ge d 0 with hd | hd
  · -- it is the addition that goes wrong
    have hsub : t.sub (-d) = ofTotal (t.total + d) := by
      rw [ht.sub_eq (by omega), Int.sub_neg, max_eq_right hresult]
    rw [NoCarry, hsub, ← normalized_add_iff ht]
    constructor
    · rintro ⟨-, hnorm⟩
      exact Or.inr ⟨hd, hnorm⟩
    · rintro (⟨hd', -⟩ | ⟨-, hnorm⟩)
      · omega
      · exact ⟨add_eq_ofTotal hnorm, hnorm⟩
  · -- it is the subtraction
    have hrest : NoCarry t d ↔ t.nsec + d % 1000000000 < 1000000000 ∨ t.total + d = 0 := by
      simp only [NoCarry]
      omega
    rw [ht.add_eq hd, sub_neg_eq ht hd, hrest, and_iff_left (normalized_ofTotal _)]
    simp only [ofTotal, zero]
    by_cases hsec : t.sec + d / 1000000000 < 0
    · -- the seconds of both do not reach the epoch, and their nanoseconds get there or beyond
      rw [if_pos hsec, mk.injEq]
      omega
    · rw [if_neg hsec, mk.injEq]
      omega

theorem no_carry_within_second :
    (⟨1, 200000000⟩ : Timespec).add (-100000000) = (⟨1, 200000000⟩ : Timespec).sub 100000000 :=
  ((@signed_duration_iff ⟨1, 200000000⟩ ⟨by decide, by decide⟩ (-100000000) (by decide)).mpr
    (Or.inr ⟨by decide, Or.inl (by decide)⟩)).1

/-- One nanosecond later, at the end of a second: subtracting its negation leaves ten to the
ninth nanoseconds. One nanosecond earlier, at the start of a second: adding it leaves less
than none. -/
theorem carry_not_normalized :
    let late : Timespec := ⟨1, 999999999⟩
    let early : Timespec := ⟨1, 0⟩
    (late.add 1 = ⟨2, 0⟩ ∧ late.sub (-1) = ⟨1, 1000000000⟩ ∧
        ¬ (late.add 1 = late.sub (-1) ∧ (late.add 1).Normalized)) ∧
      early.add (-1) = ⟨1, -1⟩ ∧ early.sub 1 = ⟨0, 999999999⟩ ∧
        ¬ (early.add (-1) = early.sub 1 ∧ (early.add (-1)).Normalized) := by
  decide

/-! ### Distance -/

/-- Normalised instants compare as their counts do. -/
theorem lt_iff_total {a b : Timespec} (ha : a.Normalized) (hb : b.Normalized) :
    a < b ↔ a.total < b.total := by
  rw [ha.eq_ofTotal, hb.eq_ofTotal, ofTotal_lt_ofTotal, total_ofTotal, total_ofTotal]

theorem eq_iff_total {a b : Timespec} (ha : a.Normalized) (hb : b.Normalized) :
    a = b ↔ a.total = b.total := by
  refine ⟨fun h => by rw [h], fun h => ?_⟩
  rw [ha.eq_ofTotal, hb.eq_ofTotal, h]

theorem delta_eq {a b : Timespec} (ha : a.Normalized) (hb : b.Normalized) :
    a.delta b = |a.total - b.total| := by
  have hlt := lt_iff_total hb ha
  simp only [total] at hlt
  simp only [delta, greater_iff, hlt, total]
  split
  · rw [abs_of_nonneg (by omega)]
    omega
  · rw [abs_of_nonpos (by omega)]
    omega

/-- **`delta` is the metric of the order and of the arithmetic.** The operators are the order
of the counts, the distance is theirs, and it leads from the earlier instant to the
later one and back. -/
theorem delta_metric {a b : Timespec} (ha : a.Normalized) (hb : b.Normalized) (hsec : 0 ≤ a.sec) :
    ((a < b ↔ a.total < b.total) ∧ (a.Greater b ↔ a.total > b.total) ∧
        (a ≤ b ↔ a.total ≤ b.total) ∧ (a ≥ b ↔ a.total ≥ b.total) ∧ (a = b ↔ a.total = b.total)) ∧
      (a.delta b = |a.total - b.total| ∧ b.delta a = |a.total - b.total| ∧ (a.delta b = 0 ↔ a = b))
        ∧
      (a ≤ b → a.add (a.delta b) = b ∧ b.sub (a.delta b) = a) := by
  have hle : ∀ {a b : Timespec}, a.Normalized → b.Normalized → (a ≤ b ↔ a.total ≤ b.total) := by
    intro a b ha hb
    rw [le_def, lt_iff_total hb ha, not_lt]
  have hdelta := delta_eq ha hb
  refine ⟨⟨lt_iff_total ha hb, ?_, hle ha hb, hle hb ha, eq_iff_total ha hb⟩, ⟨hdelta, ?_, ?_⟩, ?_⟩
  · rw [greater_iff]
    exact lt_iff_total hb ha
  · rw [delta_eq hb ha, abs_sub_comm]
  · rw [hdelta, abs_eq_zero, sub_eq_zero, eq_iff_total ha hb]
  · intro hab
    have hab := (hle ha hb).mp hab
    have hdist : a.delta b = b.total - a.total := by
      rw [hdelta, abs_of_nonpos (by omega)]
      omega
    have hnonneg : 0 ≤ b.total - a.total := by omega
    have hforth : a.total + (b.total - a.total) = b.total := by omega
    have hback : b.total - (b.total - a.total) = a.total := by omega
    have ha0 := total_nonneg ha hsec
    constructor
    · rw [hdist, ha.add_eq hnonneg, hforth, ← hb.eq_ofTotal]
    · rw [hdist, hb.sub_eq hnonneg, hback, max_eq_right ha0, ← ha.eq_ofTotal]

/-- From a fraction of one second to a smaller fraction of a later one. -/
theorem delta_across_seconds :
    (⟨1, 900000000⟩ : Timespec).delta ⟨3, 100000000⟩ = 1200000000 ∧
      (⟨1, 900000000⟩ : Timespec).add 1200000000 = ⟨3, 100000000⟩ ∧
      (⟨3, 100000000⟩ : Timespec).sub 1200000000 = ⟨1, 900000000⟩ :=
  have h :=
    @delta_metric ⟨1, 900000000⟩ ⟨3, 100000000⟩ ⟨by decide, by decide⟩ ⟨by decide, by decide⟩
    (by decide)
  ⟨h.2.1.1, h.2.2 (by decide)⟩

end Timespec

end TradingDesk.Utils
