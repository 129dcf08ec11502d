import Mathlib.Data.Nat.Init
import Mathlib.Tactic.Linarith
import Mathlib.Tactic.LinearCombination
import Mathlib.Tactic.Ring

/-!
# TradingDesk.Core.DigitDivision

**Long division with two-digit divisors.** In base `B`, a divisor `ch * B + cl`
divides `u * B + w` one quotient digit at a time. The digit is estimated as
`u / ch`, never too small, and corrected downwards, with `q * ch + r = u` kept
throughout; the correction stops at the exact digit, whatever the divisor. If the
divisor is normalised (`ch` is at least half of `B`), two steps are enough.

The remainder is computed digit by digit in arithmetic modulo `B * B`, where the
low digit may borrow more than the high digit has; `subtract_digits` says that
the borrows cancel.
-/

namespace TradingDesk.Core.DigitDivision

/-! ### The quotient digit -/

variable {B ch cl u w q r : Nat}

/-- A quotient of a dividend that is less than a multiple of the divisor is a digit. -/
theorem digit_lt {c : Nat} (hu : u < c) (hw : w < B) : (u * B + w) / c < B := by
  refine Nat.div_lt_of_lt_mul ?_
  calc u * B + w < u * B + B := by omega
    _ = (u + 1) * B := by ring
    _ ≤ c * B := Nat.mul_le_mul_right B hu

/-- The estimate is not too small. -/
theorem digit_le_estimate (hch : 0 < ch) (hw : w < B) : (u * B + w) / (ch * B + cl) ≤ u / ch := by
  rw [Nat.le_div_iff_mul_le hch]
  generalize hQ : (u * B + w) / (ch * B + cl) = Q
  have hle : Q * (ch * B + cl) ≤ u * B + w := hQ ▸ Nat.div_mul_le_self _ _
  have hlt : Q * ch * B < (u + 1) * B := by nlinarith [Nat.zero_le (Q * cl)]
  exact Nat.le_of_lt_succ (Nat.lt_of_mul_lt_mul_right hlt)

/-- The estimate is too large by at most two, if the upper digit of the divisor is at least half
the base. -/
theorem estimate_le_digit_add_two (hB : B ≤ 2 * ch) (hcl : cl < B) (hu : u < ch * B + cl) :
    u / ch ≤ (u * B + w) / (ch * B + cl) + 2 := by
  have hch : 0 < ch := by omega
  generalize hQ : (u * B + w) / (ch * B + cl) = Q
  generalize hq : u / ch = q
  have hmul : q * ch ≤ u := hq ▸ Nat.div_mul_le_self u ch
  have hlt : u * B + w < (ch * B + cl) * (Q + 1) :=
    hQ ▸ Nat.lt_mul_div_succ _ (Nat.add_pos_left (Nat.mul_pos hch (by omega)) cl)
  by_contra hover
  obtain ⟨k, rfl⟩ : ∃ k, q = k + 2 := ⟨q - 2, by omega⟩
  have hstep : (ch * B + cl) * (Q + 1) ≤ (ch * B + cl) * k := Nat.mul_le_mul_left _ (by omega)
  -- being too large by three takes an estimate above `2 * ch + 2` ...
  have hlarge : 2 * ch * B < k * B := by nlinarith
  have hk : 2 * ch < k := Nat.lt_of_mul_lt_mul_right hlarge
  -- ... but the dividend leaves room for `B + 1` only
  have hsmall : (k + 2) * ch < (B + 2) * ch := by nlinarith
  have hq' := Nat.lt_of_mul_lt_mul_right hsmall
  omega

/-- The largest multiple of a number below a bound is above half of it. -/
theorem le_two_mul_mul_div {c n : Nat} (hc : 0 < c) (hle : c ≤ n) : n ≤ 2 * (c * (n / c)) := by
  have hdm := Nat.div_add_mod n c
  have hmod := Nat.mod_lt n hc
  have hone : c * 1 ≤ c * (n / c) := Nat.mul_le_mul_left c (Nat.div_pos hle hc)
  omega

/-- An estimate whose low product exceeds what is left is too large. -/
theorem digit_lt_of_excess (hinv : q * ch + r = u) (h : r * B + w < q * cl) :
    (u * B + w) / (ch * B + cl) < q := by
  refine Nat.div_lt_of_lt_mul ?_
  calc u * B + w = q * ch * B + (r * B + w) := by rw [← hinv]; ring
    _ < q * ch * B + q * cl := by omega
    _ = (ch * B + cl) * q := by ring

/-- An estimate that is a digit and needs no correction is not too large. -/
theorem le_digit_of_settled (hc : 0 < ch * B + cl) (hinv : q * ch + r = u) (hq : q < B)
    (hcl : cl < B) (h : B ≤ r ∨ q * cl ≤ r * B + w) : q ≤ (u * B + w) / (ch * B + cl) := by
  have hlow : q * cl ≤ r * B + w := by
    rcases h with hr | h
    · calc q * cl ≤ B * B := Nat.mul_le_mul hq.le hcl.le
        _ ≤ r * B := Nat.mul_le_mul_right B hr
        _ ≤ r * B + w := Nat.le_add_right _ _
    · exact h
  rw [Nat.le_div_iff_mul_le hc]
  calc q * (ch * B + cl) = q * ch * B + q * cl := by ring
    _ ≤ q * ch * B + (r * B + w) := by omega
    _ = u * B + w := by rw [← hinv]; ring

/-! ### The digits of a quotient and of a remainder -/

/-- Bring down one more digit. -/
theorem div_step (x : Nat) {c : Nat} (hc : 0 < c) :
    (x * B + w) / c = x / c * B + (x % c * B + w) / c := by
  have hx : x * B + w = c * (x / c * B) + (x % c * B + w) := by
    nlinarith [Nat.div_add_mod x c]
  rw [hx, Nat.mul_add_div hc]

/-- Reducing both factors of a product modulo the divisor first. -/
theorem mul_div_split (a b : Nat) {c : Nat} (hc : 0 < c) :
    a * b / c = a / c * b + a % c * (b / c) + a % c * (b % c) / c := by
  have ha := Nat.div_add_mod a c
  have hb := Nat.div_add_mod b c
  have hsplit : a * b = c * (a / c * b + a % c * (b / c)) + a % c * (b % c) := by
    calc a * b = c * (a / c) * b + a % c * (c * (b / c) + b % c) := by
          rw [hb, ← Nat.add_mul, ha]
      _ = c * (a / c * b + a % c * (b / c)) + a % c * (b % c) := by ring
  rw [hsplit, Nat.mul_add_div hc]

/-- The product of two two-digit numbers, as its three upper digits and its low digit:
the high part may itself have two digits. -/
theorem mul_digits (ah al bh bl : Nat) :
    let p0 := al * bl
    let p1 := p0 / B + al * bh
    let p2 := p1 / B + ah * bh
    let p1' := p1 % B + ah * bl
    ((p2 + p1' / B) * B + p1' % B) * B + p0 % B = (ah * B + al) * (bh * B + bl) := by
  intro p0 p1 p2 p1'
  have h0 := Nat.div_add_mod p0 B
  have h1 := Nat.div_add_mod p1 B
  have h1' := Nat.div_add_mod p1' B
  calc ((p2 + p1' / B) * B + p1' % B) * B + p0 % B
      = (p2 * B + (B * (p1' / B) + p1' % B)) * B + p0 % B := by ring
    _ = ((B * (p1 / B) + p1 % B) + ah * bh * B + ah * bl) * B + p0 % B := by rw [h1']; ring
    _ = (al * bh + ah * bh * B + ah * bl) * B + (B * (p0 / B) + p0 % B) := by rw [h1]; ring
    _ = (ah * B + al) * (bh * B + bl) := by rw [h0]; ring

/-- The remainder of a division step, computed digit by digit modulo `B * B`. -/
theorem subtract_digits {B u w q ch cl : Int} (hB : 0 < B)
    (hnonneg : 0 ≤ u * B + w - q * (ch * B + cl)) (hlt : u * B + w - q * (ch * B + cl) < B * B) :
    let low := (u % B * B + w - q * cl) % (B * B)
    let high := (u / B * B + low / B - q * ch) % (B * B)
    low % B + high % B * B = u * B + w - q * (ch * B + cl) := by
  intro low high
  generalize hR : u * B + w - q * (ch * B + cl) = R at hnonneg hlt
  generalize hk : (u % B * B + w - q * cl) / (B * B) = k
  have hu := Int.mul_ediv_add_emod u B
  -- the low digit is the one of `R`, what it borrowed is in its quotient
  have hlow : low = R + B * (q * ch - u / B * B - B * k) := by
    have := Int.mul_ediv_add_emod (u % B * B + w - q * cl) (B * B)
    rw [hk] at this
    linear_combination this + hR + B * hu
  have hmod : low % B = R % B := by
    rw [hlow, Int.add_mul_emod_self_left]
  have hdiv : low / B = R / B + (q * ch - u / B * B - B * k) := by
    rw [hlow, Int.add_mul_ediv_left _ _ hB.ne']
  have hhigh : high % B = R / B := by
    have hdigit : R / B % B = R / B :=
      Int.emod_eq_of_lt (Int.ediv_nonneg hnonneg hB.le) (Int.ediv_lt_of_lt_mul hB hlt)
    rw [show high = (R / B + B * (-k)) % (B * B) by simp only [high, hdiv]; congr 1; ring,
      Int.emod_emod_of_dvd _ (Dvd.intro B rfl), Int.add_mul_emod_self_left, hdigit]
  rw [hmod, hhigh]
  linarith [Int.mul_ediv_add_emod R B]

end TradingDesk.Core.DigitDivision
