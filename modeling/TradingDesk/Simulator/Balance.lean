import Mathlib.Tactic.Linarith
import Mathlib.Tactic.Ring
import TradingDesk.Simulator.Displacement

/-!
# TradingDesk.Simulator.Balance

**Where a range closes.** As long as no price is cut off at a cent, the last price of a range is
a weighted sum of the prices at its ends and of the draws. The weights depend on the number of
cells only, and the prices at the ends have a whole between them. The range sinks below its
ends by no more than the draws fall.
-/

namespace TradingDesk.Simulator

/-! ### Weighted sums -/

/-- The weighted sum of draws, from the one with the given number on. -/
def weigh (draws : ℕ → ℚ) (drawn : ℕ) : List ℚ → ℚ
  | [] => 0
  | w :: ws => w * draws drawn + weigh draws (drawn + 1) ws

/-- How far draws fall, taken together: the sum of the negative ones. -/
def fall (draws : ℕ → ℚ) (drawn : ℕ) : ℕ → ℚ
  | 0 => 0
  | n + 1 => min 0 (draws drawn) + fall draws (drawn + 1) n

section

variable {draws : ℕ → ℚ}

theorem weigh_append (v w : List ℚ) (drawn : ℕ) :
    weigh draws drawn (v ++ w) = weigh draws drawn v + weigh draws (drawn + v.length) w := by
  induction v generalizing drawn with
  | nil => simp [weigh]
  | cons x v ih =>
      have hdrawn : drawn + 1 + v.length = drawn + (v.length + 1) := by omega
      rw [List.cons_append, weigh, weigh, ih, List.length_cons, hdrawn, ← add_assoc]

theorem weigh_map_mul (c : ℚ) (w : List ℚ) (drawn : ℕ) :
    weigh draws drawn (w.map (c * ·)) = c * weigh draws drawn w := by
  induction w generalizing drawn with
  | nil => simp [weigh]
  | cons x w ih =>
      rw [List.map_cons, weigh, weigh, ih]
      ring

theorem fall_append (m n drawn : ℕ) :
    fall draws drawn (m + n) = fall draws drawn m + fall draws (drawn + m) n := by
  induction m generalizing drawn with
  | zero => simp [fall]
  | succ m ih =>
      have hdrawn : drawn + 1 + m = drawn + (m + 1) := by omega
      rw [Nat.add_right_comm, fall, fall, ih, hdrawn, ← add_assoc]

theorem fall_nonpos (n drawn : ℕ) : fall draws drawn n ≤ 0 := by
  induction n generalizing drawn with
  | zero => exact le_rfl
  | succ n ih => exact add_nonpos (min_le_left _ _) (ih _)

end

/-! ### The weights of a range -/

/-- What the last price of a range is made of. -/
structure Weights where
  front : ℚ
  back : ℚ
  draws : List ℚ

namespace Weights

/-- The weighted sum. -/
def apply (w : Weights) (draws : ℕ → ℚ) (drawn : ℕ) (front back : ℚ) : ℚ :=
  w.front * front + w.back * back + weigh draws drawn w.draws

/-- A range that ends where it begins. -/
def atFront : Weights := ⟨1, 0, []⟩

/-- A range whose last price is left as it is. -/
def atBack : Weights := ⟨0, 1, []⟩

/-- The middle is displaced from the mean of the ends, and is then the back of the first half; what
has become of it is the front of the second half. -/
def halves (left right : Weights) (generation : ℕ) : Weights where
  front := right.front * (left.front + left.back / 2)
  back := right.front * (left.back / 2) + right.back
  draws := (left.back / generation :: left.draws).map (right.front * ·) ++ right.draws

@[simp] theorem length_draws_halves (left right : Weights) (generation : ℕ) :
    (halves left right generation).draws.length
      = 1 + left.draws.length + right.draws.length := by
  simp only [halves, List.length_append, List.length_map, List.length_cons]
  omega

theorem apply_halves (left right : Weights) (generation : ℕ) (draws : ℕ → ℚ) (drawn : ℕ)
    (front back : ℚ) :
    (halves left right generation).apply draws drawn front back
      = right.apply draws (drawn + (1 + left.draws.length))
          (left.apply draws (drawn + 1) front ((front + back) / 2 + draws drawn / generation))
            back := by
  simp only [apply, halves, weigh_append, weigh_map_mul, weigh, List.length_map, List.length_cons,
    Nat.add_comm 1]
  ring

/-- The prices at the ends have a whole between them. -/
def IsShared (w : Weights) : Prop := w.front + w.back = 1

theorem IsShared.halves {left right : Weights} (hleft : left.IsShared) (hright : right.IsShared)
    (generation : ℕ) : (Weights.halves left right generation).IsShared := by
  rw [IsShared] at *
  calc right.front * (left.front + left.back / 2) + (right.front * (left.back / 2) + right.back)
      = right.front * (left.front + left.back) + right.back := by ring
    _ = 1 := by rw [hleft, mul_one, hright]

/-- The range sinks no further than the draws fall. -/
def Sinks (w : Weights) (draws : ℕ → ℚ) : Prop :=
  ∀ drawn front back,
    min front back + fall draws drawn w.draws.length ≤ w.apply draws drawn front back

variable {draws : ℕ → ℚ}

end Weights

/-- The middle sinks no further below the ends than its own draw falls. -/
theorem lt_middle {front back draw : ℚ} {generation : ℕ} (hgen : 1 ≤ generation) :
    min front back + min 0 draw ≤ (front + back) / 2 + draw / generation := by
  have hgen : (1 : ℚ) ≤ generation := by exact_mod_cast hgen
  have hends : min front back ≤ (front + back) / 2 := by
    have := min_le_left front back
    have := min_le_right front back
    linarith
  have hdraw : min 0 draw ≤ draw / generation := by
    rcases le_total 0 draw with h | h
    · exact (min_le_left _ _).trans (div_nonneg h (by linarith))
    · refine (min_le_right _ _).trans ?_
      rw [le_div_iff₀ (by linarith)]
      nlinarith
  exact add_le_add hends hdraw

/-- Ends that are high enough for all draws are high enough for those of each half, and for the
middle. -/
theorem floor_halves {draws : ℕ → ℚ} {left : Weights} (hleft : left.Sinks draws)
    {drawn generation n : ℕ} (hgen : 1 ≤ generation) {front back floor : ℚ}
    (h : floor ≤ min front back + fall draws drawn (1 + left.draws.length + n)) {value : ℚ}
    (hvalue : value = (front + back) / 2 + draws drawn / generation) :
    floor ≤ value ∧ floor ≤ min front value + fall draws (drawn + 1) left.draws.length ∧
      floor ≤ min (left.apply draws (drawn + 1) front value) back
        + fall draws (drawn + (1 + left.draws.length)) n := by
  have hmiddle : min front back + min 0 (draws drawn) ≤ value := hvalue ▸ lt_middle hgen
  have hx := hleft (drawn + 1) front value
  generalize left.apply draws (drawn + 1) front value = x at hx ⊢
  rw [fall_append, Nat.add_comm 1, fall] at h
  rw [Nat.add_comm 1]
  have hfall := @fall_nonpos draws left.draws.length (drawn + 1)
  have hfall' := @fall_nonpos draws n (drawn + (left.draws.length + 1))
  have hdraw := min_le_left 0 (draws drawn)
  -- the ends of the first half, and then those of the second half
  have hends : min front back + min 0 (draws drawn) ≤ min front value :=
    le_min (by linarith [min_le_left front back]) hmiddle
  have hends' : min front back + min 0 (draws drawn) + fall draws (drawn + 1) left.draws.length
      ≤ min x back := le_min (by linarith) (by linarith [min_le_right front back])
  exact ⟨by linarith, by linarith, by linarith⟩

theorem Weights.Sinks.halves {draws : ℕ → ℚ} {left right : Weights} (hleft : left.Sinks draws)
    (hright : right.Sinks draws) {generation : ℕ} (hgen : 1 ≤ generation) :
    (Weights.halves left right generation).Sinks draws := by
  intro drawn front back
  rw [Weights.apply_halves, Weights.length_draws_halves]
  exact (floor_halves hleft hgen le_rfl rfl).2.2.trans (hright _ _ _)

/-- A log with an assignment for each draw, of which the last one is of the weighted sum. -/
structure ClosesAt (log : List (ℕ × ℚ)) (w : Weights) (draws : ℕ → ℚ) (drawn : ℕ)
    (front back : ℚ) : Prop where
  length_eq : log.length = w.draws.length
  last_eq : log.getLast?.map Prod.snd = some (w.apply draws drawn front back)

namespace ClosesAt

variable {draws : ℕ → ℚ} {log : List (ℕ × ℚ)} {w : Weights} {drawn : ℕ} {front back : ℚ} {p : Prop}
  [Decidable p]

/-- The middle, and then the first half. -/
theorem cons {value : ℚ} (middle : ℕ) (h : p → ClosesAt log w draws drawn front value) :
    ((middle, value) :: if p then log else []).length
        = 1 + (if p then w else .atBack).draws.length ∧
      ((middle, value) :: if p then log else []).getLast?.map Prod.snd
        = some ((if p then w else .atBack).apply draws drawn front value) := by
  by_cases hp : p
  · obtain ⟨hlength, hlast⟩ := h hp
    rw [if_pos hp, if_pos hp, List.length_cons, hlength, Nat.add_comm]
    refine ⟨rfl, ?_⟩
    cases log with
    | nil => cases hlast
    | cons a log => rwa [List.getLast?_cons_cons]
  · rw [if_neg hp, if_neg hp]
    simp [Weights.atBack, Weights.apply, weigh]

/-- The second half behind the first one. -/
theorem append {left : List (ℕ × ℚ)} {x : ℚ} (hleft : left.getLast?.map Prod.snd = some x)
    (h : p → ClosesAt log w draws drawn x back) :
    (left ++ if p then log else []).length
        = left.length + (if p then w else .atFront).draws.length ∧
      (left ++ if p then log else []).getLast?.map Prod.snd
        = some ((if p then w else .atFront).apply draws drawn x back) := by
  by_cases hp : p
  · obtain ⟨hlength, hlast⟩ := h hp
    rw [if_pos hp, if_pos hp, List.length_append, hlength, List.getLast?_append]
    refine ⟨rfl, ?_⟩
    cases hlog : log.getLast? with
    | none =>
        rw [hlog] at hlast
        cases hlast
    | some a => rwa [hlog] at hlast
  · rw [if_neg hp, if_neg hp, List.append_nil, hleft]
    simp [Weights.atFront, Weights.apply, weigh]

end ClosesAt

end TradingDesk.Simulator
