import Mathlib.Data.Int.ModEq
import Mathlib.Tactic.Zify
import TradingDesk.Core.DigitDivision

/-!
# TradingDesk.Utils.MulDiv

**`muldiv64`** (`utils.cpp`): `a * b / c` for 64-bit operands, with a 128-bit
product where the compiler has one and by a long division of 32-bit digits where
it has not. All arithmetic of the long division is modulo `2 ^ 64`; the operands
stay small enough that only one subtraction, the low digit's, ever wraps, and
that wrap is undone in the next line.
-/

namespace TradingDesk.Utils

open TradingDesk.Core

/-! ### The two branches -/

/-- `1ull << 32ull`. -/
def base : UInt64 := (1 : UInt64) <<< (32 : UInt64)

/-- `(base - 1) * base + (base - 1)`. -/
def maxdiv : UInt64 := (base - 1) * base + (base - 1)

/-- "compute the product": the digits `p2`, `p1`, `p0`, of which `p2` holds two. -/
def product (a b : UInt64) : UInt64 × UInt64 × UInt64 :=
  let ah := a / base
  let al := a % base
  let bh := b / base
  let bl := b % base
  let p0 := al * bl
  let p1 := p0 / base + al * bh
  let p0 := p0 % base
  let p2 := p1 / base + ah * bh
  let p1 := p1 % base + ah * bl
  let p2 := p2 + p1 / base
  let p1 := p1 % base
  (p2, p1, p0)

/-- "and now adjust": the loop that corrects an estimated digit `q`, with `p` the next
digit of the dividend. -/
def adjust (ch cl p : UInt64) (q rhat : UInt64) : UInt64 :=
  if base ≤ q ∨ (rhat < base ∧ rhat * base + p < q * cl) then
    adjust ch cl p (q - 1) (rhat + ch)
  else q
termination_by q.toNat
decreasing_by
  rename_i h
  have hq : q ≠ 0 := by
    rintro rfl
    rcases h with h | ⟨-, h⟩
    · exact absurd h (by decide)
    · rw [UInt64.zero_mul] at h
      exact absurd h (UInt64.not_lt_zero)
  have hpos : 0 < q.toNat := Nat.pos_of_ne_zero fun h0 => hq (UInt64.toNat_inj.mp h0)
  have hone : (1 : UInt64) ≤ q := UInt64.le_iff_toNat_le.mpr hpos
  rw [UInt64.toNat_sub_of_le _ _ hone]
  exact Nat.sub_lt hpos Nat.one_pos

/-- "subtract": what is left of the two-digit number `p2` and the digit `p1` once the
digit `q` times the divisor is taken off. -/
def subtract (ch cl q p2 p1 : UInt64) : UInt64 :=
  let p1 := ((p2 % base) * base + p1) - q * cl
  let p2 := (p2 / base * base + p1 / base) - q * ch
  p1 % base + (p2 % base) * base

/-- The two lower digits `q1` and `q0` of `a * b / c`. Each is estimated from the upper
digit of the divisor and then adjusted. -/
def quotientDigits (a b c : UInt64) : UInt64 × UInt64 :=
  let (p2, p1, p0) := product a b
  let ch := c / base
  let cl := c % base
  let p2 := p2 % c
  let q1 := adjust ch cl p1 (p2 / ch) (p2 % ch)
  let p1 := subtract ch cl q1 p2 p1
  let q0 := adjust ch cl p0 (p1 / ch) (p1 % ch)
  (q1, q0)

/-- The branch for Windows. -/
def muldiv64Windows (a b c : UInt64) : UInt64 :=
  let res := (a / c) * b + (a % c) * (b / c)
  let a := a % c
  let b := b % c
  if a = 0 ∨ b = 0 then res
  else if c < base then res + (a * b / c)
  else
    let norm := maxdiv / c
    let c := c * norm
    let a := a * norm
    let (q1, q0) := quotientDigits a b c
    res + q0 + q1 * base

/-- The other branch, on 128-bit integers. -/
def muldiv64Wide (a b c : UInt64) : UInt64 :=
  let wide (x : UInt64) : BitVec 128 := x.toBitVec.setWidth 128
  ⟨((wide a * wide b) / wide c).setWidth 64⟩

/-! ### The 128-bit branch -/

theorem toNat_muldiv64Wide (a b c : UInt64) :
    (muldiv64Wide a b c).toNat = a.toNat * b.toNat / c.toNat % 2 ^ 64 := by
  have hwide : ∀ x : UInt64, (x.toBitVec.setWidth 128).toNat = x.toNat := fun x => by
    rw [BitVec.toNat_setWidth]
    exact Nat.mod_eq_of_lt (lt_trans x.toNat_lt (by norm_num))
  have hprod : a.toNat * b.toNat < 2 ^ 128 :=
    lt_of_lt_of_le (Nat.mul_lt_mul'' a.toNat_lt b.toNat_lt) (by norm_num)
  show ((a.toBitVec.setWidth 128 * b.toBitVec.setWidth 128) / c.toBitVec.setWidth 128
    |>.setWidth 64).toNat = _
  rw [BitVec.toNat_setWidth, BitVec.toNat_udiv, BitVec.toNat_mul, hwide, hwide, hwide,
    Nat.mod_eq_of_lt hprod]

/-! ### Exact 64-bit arithmetic -/

section Exact

variable {x y : UInt64}

theorem toNat_add_of_lt (h : x.toNat + y.toNat < 2 ^ 64) : (x + y).toNat = x.toNat + y.toNat := by
  rw [UInt64.toNat_add, Nat.mod_eq_of_lt h]

theorem toNat_mul_of_lt (h : x.toNat * y.toNat < 2 ^ 64) : (x * y).toNat = x.toNat * y.toNat := by
  rw [UInt64.toNat_mul, Nat.mod_eq_of_lt h]

/-- A subtraction that may wrap, in the integers. -/
theorem toNat_sub_emod (x y : UInt64) :
    ((x - y).toNat : Int) = ((x.toNat : Int) - y.toNat) % (2 ^ 32 * 2 ^ 32) := by
  have hy := y.toNat_lt
  rw [UInt64.toNat_sub]
  omega

@[simp] theorem toNat_base : base.toNat = 2 ^ 32 := by decide

theorem toNat_div_base (x : UInt64) : (x / base).toNat = x.toNat / 2 ^ 32 := by
  rw [UInt64.toNat_div, toNat_base]

theorem toNat_mod_base (x : UInt64) : (x % base).toNat = x.toNat % 2 ^ 32 := by
  rw [UInt64.toNat_mod, toNat_base]

theorem toNat_div_base_lt (x : UInt64) : (x / base).toNat < 2 ^ 32 := by
  have := x.toNat_lt
  rw [toNat_div_base]
  omega

theorem toNat_mod_base_lt (x : UInt64) : (x % base).toNat < 2 ^ 32 := by
  rw [toNat_mod_base]
  exact Nat.mod_lt _ (by decide)

/-- "split into 2 digits". -/
theorem toNat_digits (x : UInt64) : (x / base).toNat * 2 ^ 32 + (x % base).toNat = x.toNat := by
  rw [toNat_div_base, toNat_mod_base]
  exact Nat.div_add_mod' _ _

/-- Two digits put together. -/
theorem toNat_shift_add (hx : x.toNat < 2 ^ 32) (hy : y.toNat < 2 ^ 32) :
    (x * base + y).toNat = x.toNat * 2 ^ 32 + y.toNat := by
  have hshift : (x * base).toNat = x.toNat * 2 ^ 32 := by
    rw [toNat_mul_of_lt (by rw [toNat_base]; omega), toNat_base]
  rw [toNat_add_of_lt (by rw [hshift]; omega), hshift]

/-- The product of two digits. -/
theorem toNat_mul_digits (hx : x.toNat < 2 ^ 32) (hy : y.toNat < 2 ^ 32) :
    (x * y).toNat = x.toNat * y.toNat ∧ (x * y).toNat ≤ (2 ^ 32 - 1) * (2 ^ 32 - 1) := by
  have hle : x.toNat * y.toNat ≤ (2 ^ 32 - 1) * (2 ^ 32 - 1) :=
    Nat.mul_le_mul (by omega) (by omega)
  have heq := toNat_mul_of_lt (x := x) (y := y) (by omega)
  exact ⟨heq, heq ▸ hle⟩

/-- The product of two digits taken off a number, which may wrap. -/
theorem toNat_sub_mul_digits (z : UInt64) (hx : x.toNat < 2 ^ 32) (hy : y.toNat < 2 ^ 32) :
    ((z - x * y).toNat : Int) = ((z.toNat : Int) - x.toNat * y.toNat) % (2 ^ 32 * 2 ^ 32) := by
  rw [toNat_sub_emod, (toNat_mul_digits hx hy).1, Nat.cast_mul]

end Exact

/-! ### The steps of the long division -/

theorem toNat_product (a b : UInt64) :
    (((product a b).1.toNat * 2 ^ 32 + (product a b).2.1.toNat) * 2 ^ 32
        + (product a b).2.2.toNat = a.toNat * b.toNat) ∧
      (product a b).2.1.toNat < 2 ^ 32 ∧ (product a b).2.2.toNat < 2 ^ 32 := by
  have digit : ∀ x : UInt64, (x / base).toNat < 2 ^ 32 ∧ (x % base).toNat < 2 ^ 32 :=
    fun x => ⟨toNat_div_base_lt x, toNat_mod_base_lt x⟩
  -- no product of digits wraps, nor does its sum with the carries
  obtain ⟨hll, hllLe⟩ := toNat_mul_digits (digit a).2 (digit b).2
  obtain ⟨hlh, hlhLe⟩ := toNat_mul_digits (digit a).2 (digit b).1
  obtain ⟨hhl, hhlLe⟩ := toNat_mul_digits (digit a).1 (digit b).2
  obtain ⟨hhh, hhhLe⟩ := toNat_mul_digits (digit a).1 (digit b).1
  simp only [product]
  generalize hp0 : a % base * (b % base) = p0 at *
  have hp1 : (p0 / base + a % base * (b / base)).toNat
      = p0.toNat / 2 ^ 32 + (a % base * (b / base)).toNat := by
    rw [toNat_add_of_lt (by rw [toNat_div_base]; omega), toNat_div_base]
  generalize p0 / base + a % base * (b / base) = p1 at *
  have hp1' : (p1 % base + a / base * (b % base)).toNat
      = p1.toNat % 2 ^ 32 + (a / base * (b % base)).toNat := by
    rw [toNat_add_of_lt (by rw [toNat_mod_base]; omega), toNat_mod_base]
  generalize p1 % base + a / base * (b % base) = p1' at *
  have hp2 : (p1 / base + a / base * (b / base) + p1' / base).toNat
      = p1.toNat / 2 ^ 32 + (a / base * (b / base)).toNat + p1'.toNat / 2 ^ 32 := by
    have := p1.toNat_lt
    have := p1'.toNat_lt
    have hsum : (p1 / base + a / base * (b / base)).toNat
        = p1.toNat / 2 ^ 32 + (a / base * (b / base)).toNat := by
      rw [toNat_add_of_lt (by rw [toNat_div_base]; omega), toNat_div_base]
    rw [toNat_add_of_lt (by rw [hsum, toNat_div_base]; omega), hsum, toNat_div_base]
  refine ⟨?_, (digit p1').2, (digit p0).2⟩
  rw [← toNat_digits a, ← toNat_digits b, ← DigitDivision.mul_digits (B := 2 ^ 32), hp2,
    toNat_mod_base, toNat_mod_base, hp1', hp1, hll, hlh, hhl, hhh]

/-- What holds in every round of the correction loop, for a dividend of `u` and the digit `p`:
the estimate is not too small, and what it leaves of `u` is known. -/
structure Estimate (ch cl p : UInt64) (u : Nat) (q rhat : UInt64) : Prop where
  sum_eq : q.toNat * ch.toNat + rhat.toNat = u
  digit_le : (u * 2 ^ 32 + p.toNat) / (ch.toNat * 2 ^ 32 + cl.toNat) ≤ q.toNat

namespace Estimate

variable {ch cl p q rhat : UInt64} {u : Nat}

/-- Another round means that the estimate is above the digit. -/
theorem digit_lt (h : Estimate ch cl p u q rhat) (hcl : cl.toNat < 2 ^ 32) (hp : p.toNat < 2 ^ 32)
    (hc : u < ch.toNat * 2 ^ 32 + cl.toNat)
    (hagain : base ≤ q ∨ (rhat < base ∧ rhat * base + p < q * cl)) :
    (u * 2 ^ 32 + p.toNat) / (ch.toNat * 2 ^ 32 + cl.toNat) < q.toNat := by
  by_cases hq : 2 ^ 32 ≤ q.toNat
  · exact lt_of_lt_of_le (DigitDivision.digit_lt hc hp) hq
  · rcases hagain with hbase | ⟨hrhat, hexcess⟩
    · exact absurd (UInt64.le_iff_toNat_le.mp hbase) (by rwa [toNat_base])
    · rw [UInt64.lt_iff_toNat_lt, toNat_base] at hrhat
      rw [UInt64.lt_iff_toNat_lt, toNat_shift_add hrhat hp,
        (toNat_mul_digits (Nat.lt_of_not_le hq) hcl).1] at hexcess
      exact DigitDivision.digit_lt_of_excess h.sum_eq hexcess

/-- A round takes one off the estimate, without wrapping. -/
theorem next (h : Estimate ch cl p u q rhat) (hu : u < 2 ^ 64)
    (hlt : (u * 2 ^ 32 + p.toNat) / (ch.toNat * 2 ^ 32 + cl.toNat) < q.toNat) :
    (q - 1).toNat + 1 = q.toNat ∧ Estimate ch cl p u (q - 1) (rhat + ch) := by
  have hpos : 0 < q.toNat := Nat.zero_lt_of_lt hlt
  have hone : (q - 1).toNat = q.toNat - 1 :=
    UInt64.toNat_sub_of_le _ _ (UInt64.le_iff_toNat_le.mpr hpos)
  have hsplit : (q.toNat - 1) * ch.toNat + ch.toNat = q.toNat * ch.toNat := by
    rw [← Nat.succ_mul, Nat.succ_eq_add_one, Nat.sub_add_cancel hpos]
  have hsum := h.sum_eq
  -- the remainder grows by what the estimate loses, and stays below `u`
  have hle : ch.toNat ≤ q.toNat * ch.toNat := Nat.le_mul_of_pos_left _ hpos
  have hrhat : (rhat + ch).toNat = rhat.toNat + ch.toNat := toNat_add_of_lt (by omega)
  exact ⟨by omega, by rw [hone, hrhat]; omega, hone ▸ Nat.le_sub_one_of_lt hlt⟩

/-- The loop stops at the digit. -/
theorem eq_digit (h : Estimate ch cl p u q rhat) (hcl : cl.toNat < 2 ^ 32)
    (hp : p.toNat < 2 ^ 32) (hc : u < ch.toNat * 2 ^ 32 + cl.toNat)
    (hstop : ¬ (base ≤ q ∨ (rhat < base ∧ rhat * base + p < q * cl))) :
    q.toNat = (u * 2 ^ 32 + p.toNat) / (ch.toNat * 2 ^ 32 + cl.toNat) := by
  obtain ⟨hbase, hsettled⟩ := not_or.mp hstop
  rw [UInt64.le_iff_toNat_le, toNat_base, Nat.not_le] at hbase
  refine Nat.le_antisymm (DigitDivision.le_digit_of_settled (by omega) h.sum_eq hbase hcl ?_)
    h.digit_le
  by_cases hrhat : 2 ^ 32 ≤ rhat.toNat
  · exact Or.inl hrhat
  · rw [Nat.not_le] at hrhat
    have hlow := fun hexcess => hsettled ⟨UInt64.lt_iff_toNat_lt.mpr (by rwa [toNat_base]), hexcess⟩
    rw [UInt64.lt_iff_toNat_lt, toNat_shift_add hrhat hp, (toNat_mul_digits hbase hcl).1] at hlow
    exact Or.inr (Nat.le_of_not_lt hlow)

end Estimate

/-- **The correction loop ends at the exact digit**, from any estimate that is not too
small, whatever the divisor. -/
theorem toNat_adjust {ch cl p : UInt64} {u : Nat} (hcl : cl.toNat < 2 ^ 32)
    (hp : p.toNat < 2 ^ 32) (hu : u < 2 ^ 64) (hc : u < ch.toNat * 2 ^ 32 + cl.toNat)
    {q rhat : UInt64} (h : Estimate ch cl p u q rhat) :
    (adjust ch cl p q rhat).toNat
      = (u * 2 ^ 32 + p.toNat) / (ch.toNat * 2 ^ 32 + cl.toNat) := by
  induction q, rhat using adjust.induct ch cl p with
  | case1 q rhat hagain ih =>
      rw [adjust, if_pos hagain]
      exact ih (h.next hu (h.digit_lt hcl hp hc hagain)).2
  | case2 q rhat hstop =>
      rw [adjust, if_neg hstop]
      exact h.eq_digit hcl hp hc hstop

/-- **The subtraction is exact**, though its low digit may borrow. -/
theorem toNat_subtract {ch cl q p2 p1 : UInt64} (hch : ch.toNat < 2 ^ 32)
    (hcl : cl.toNat < 2 ^ 32) (hq : q.toNat < 2 ^ 32) (hp1 : p1.toNat < 2 ^ 32)
    (hle : q.toNat * (ch.toNat * 2 ^ 32 + cl.toNat) ≤ p2.toNat * 2 ^ 32 + p1.toNat)
    (hlt : p2.toNat * 2 ^ 32 + p1.toNat - q.toNat * (ch.toNat * 2 ^ 32 + cl.toNat) < 2 ^ 64) :
    (subtract ch cl q p2 p1).toNat
      = p2.toNat * 2 ^ 32 + p1.toNat - q.toNat * (ch.toNat * 2 ^ 32 + cl.toNat) := by
  have hp2 := p2.toNat_lt
  have hkey := @DigitDivision.subtract_digits (2 ^ 32) p2.toNat p1.toNat q.toNat ch.toNat cl.toNat
    (by norm_num)
    (by zify [hle] at hlt; zify at hle; linarith) (by zify [hle] at hlt; linarith)
  have hmin : ((p2 % base) * base + p1).toNat = p2.toNat % 2 ^ 32 * 2 ^ 32 + p1.toNat := by
    rw [toNat_shift_add (toNat_mod_base_lt p2) hp1, toNat_mod_base]
  -- either difference may wrap, so both are kept modulo the word
  have hlow : (((p2 % base) * base + p1 - q * cl).toNat : Int)
      = (p2.toNat % 2 ^ 32 * 2 ^ 32 + p1.toNat - q.toNat * cl.toNat) % (2 ^ 32 * 2 ^ 32) := by
    rw [toNat_sub_mul_digits _ hq hcl, hmin]
    push_cast
    rfl
  simp only [subtract]
  generalize (p2 % base) * base + p1 - q * cl = low at *
  have hhmin : (p2 / base * base + low / base).toNat
      = p2.toNat / 2 ^ 32 * 2 ^ 32 + low.toNat / 2 ^ 32 := by
    rw [toNat_shift_add (toNat_div_base_lt p2) (toNat_div_base_lt low), toNat_div_base,
      toNat_div_base]
  have hhigh : ((p2 / base * base + low / base - q * ch).toNat : Int)
      = (p2.toNat / 2 ^ 32 * 2 ^ 32 + low.toNat / 2 ^ 32 - q.toNat * ch.toNat)
        % (2 ^ 32 * 2 ^ 32) := by
    rw [toNat_sub_mul_digits _ hq hch, hhmin]
    push_cast
    rfl
  generalize p2 / base * base + low / base - q * ch = high at *
  have hdigits : (low % base + high % base * base).toNat
      = low.toNat % 2 ^ 32 + high.toNat % 2 ^ 32 * 2 ^ 32 := by
    rw [UInt64.add_comm, toNat_shift_add (toNat_mod_base_lt high) (toNat_mod_base_lt low),
      toNat_mod_base, toNat_mod_base, Nat.add_comm]
  rw [hdigits]
  zify [hle]
  dsimp only at hkey
  rw [← hlow] at hkey
  rw [← hhigh] at hkey
  exact hkey

/-! ### The long division -/

/-- The estimate that a loop starts from. -/
theorem estimate_div {ch cl p u : UInt64} (hch : 0 < ch.toNat) (hp : p.toNat < 2 ^ 32) :
    Estimate ch cl p u.toNat (u / ch) (u % ch) where
  sum_eq := by
    rw [UInt64.toNat_div, UInt64.toNat_mod, Nat.mul_comm]
    exact Nat.div_add_mod _ _
  digit_le := by
    rw [UInt64.toNat_div]
    exact DigitDivision.digit_le_estimate hch hp

/-- One digit of the quotient, from its estimate. -/
theorem toNat_adjust_estimate {c p u : UInt64} (hc : 2 ^ 32 ≤ c.toNat) (hp : p.toNat < 2 ^ 32)
    (hu : u.toNat < c.toNat) :
    (adjust (c / base) (c % base) p (u / (c / base)) (u % (c / base))).toNat
      = (u.toNat * 2 ^ 32 + p.toNat) / c.toNat := by
  have hch : 0 < (c / base).toNat := by rw [toNat_div_base]; omega
  rw [toNat_adjust (toNat_mod_base_lt c) hp u.toNat_lt (by rw [toNat_digits]; exact hu)
    (estimate_div hch hp), toNat_digits]

/-- What is left after the upper digit is the remainder. -/
theorem toNat_subtract_remainder {c q p1 p2 : UInt64} (hc : 2 ^ 32 ≤ c.toNat)
    (hp1 : p1.toNat < 2 ^ 32) (hp2 : p2.toNat < c.toNat)
    (hq : q.toNat = (p2.toNat * 2 ^ 32 + p1.toNat) / c.toNat) :
    (subtract (c / base) (c % base) q p2 p1).toNat
      = (p2.toNat * 2 ^ 32 + p1.toNat) % c.toNat := by
  have hqlt : q.toNat < 2 ^ 32 := hq ▸ DigitDivision.digit_lt hp2 hp1
  have hdm := Nat.div_add_mod (p2.toNat * 2 ^ 32 + p1.toNat) c.toNat
  have hmod : (p2.toNat * 2 ^ 32 + p1.toNat) % c.toNat < c.toNat := Nat.mod_lt _ (by omega)
  have := c.toNat_lt
  rw [← hq, Nat.mul_comm] at hdm
  rw [toNat_subtract (toNat_div_base_lt c) (toNat_mod_base_lt c) hqlt hp1
    (by rw [toNat_digits]; omega) (by rw [toNat_digits]; omega), toNat_digits]
  omega

/-- The two digits are the quotient modulo `2 ^ 64`. -/
theorem toNat_quotientDigits (a b : UInt64) {c : UInt64} (hc : 2 ^ 32 ≤ c.toNat) :
    ((quotientDigits a b c).1.toNat * 2 ^ 32 + (quotientDigits a b c).2.toNat) % 2 ^ 64
      = a.toNat * b.toNat / c.toNat % 2 ^ 64 := by
  obtain ⟨hprod, hp1, hp0⟩ := toNat_product a b
  unfold quotientDigits
  generalize product a b = p at *
  obtain ⟨p2, p1, p0⟩ := p
  dsimp only at hprod hp1 hp0 ⊢
  have hcpos : 0 < c.toNat := by omega
  have hp2 : (p2 % c).toNat < c.toNat := by rw [UInt64.toNat_mod]; exact Nat.mod_lt _ hcpos
  have hq1 := toNat_adjust_estimate hc hp1 hp2
  have hrem := toNat_subtract_remainder hc hp1 hp2 hq1
  have hq0 := toNat_adjust_estimate hc hp0
    (by rw [hrem]; exact Nat.mod_lt _ hcpos)
  -- the digit above these two is a multiple of `2 ^ 64`
  have hdigits : a.toNat * b.toNat / c.toNat = p2.toNat / c.toNat * 2 ^ 64
      + ((p2 % c).toNat * 2 ^ 32 + p1.toNat) / c.toNat * 2 ^ 32
      + (((p2 % c).toNat * 2 ^ 32 + p1.toNat) % c.toNat * 2 ^ 32 + p0.toNat) / c.toNat := by
    have hmod : (p2.toNat * 2 ^ 32 + p1.toNat) % c.toNat
        = ((p2 % c).toNat * 2 ^ 32 + p1.toNat) % c.toNat := by
      rw [UInt64.toNat_mod]
      exact (((Nat.mod_modEq p2.toNat c.toNat).mul_right _).add_right _).symm
    rw [← hprod, DigitDivision.div_step _ hcpos, DigitDivision.div_step _ hcpos, hmod,
      UInt64.toNat_mod]
    ring
  rw [hq0, hrem, hq1, hdigits]
  omega

/-- "Normalize": multiplying by `norm` does not wrap. -/
theorem toNat_mul_norm {c x : UInt64} (hx : x.toNat ≤ c.toNat) :
    (x * (maxdiv / c)).toNat = x.toNat * ((2 ^ 64 - 1) / c.toNat) := by
  have hmax : (maxdiv / c).toNat = (2 ^ 64 - 1) / c.toNat := by
    rw [UInt64.toNat_div]
    rfl
  have hle : c.toNat * ((2 ^ 64 - 1) / c.toNat) ≤ 2 ^ 64 - 1 := Nat.mul_div_le _ _
  have hmul := Nat.mul_le_mul_right ((2 ^ 64 - 1) / c.toNat) hx
  rw [toNat_mul_of_lt (by rw [hmax]; omega), hmax]

/-- It does not change the quotient. -/
theorem div_mul_norm {a b c : UInt64} (hc : 0 < c.toNat) (ha : a.toNat ≤ c.toNat) :
    (a * (maxdiv / c)).toNat * b.toNat /
    (c * (maxdiv / c)).toNat = a.toNat * b.toNat / c.toNat := by
  have hnorm : 0 < (2 ^ 64 - 1) / c.toNat := Nat.div_pos (Nat.le_sub_one_of_lt c.toNat_lt) hc
  rw [toNat_mul_norm ha, toNat_mul_norm le_rfl, Nat.mul_right_comm, Nat.mul_div_mul_right _ _ hnorm]

/-- **The long division is exact**: the Windows branch returns the quotient modulo
`2 ^ 64`. -/
theorem toNat_muldiv64Windows (a b : UInt64) {c : UInt64} (hc : c ≠ 0) :
    (muldiv64Windows a b c).toNat = a.toNat * b.toNat / c.toNat % 2 ^ 64 := by
  have hcpos : 0 < c.toNat := Nat.pos_of_ne_zero fun h0 => hc (UInt64.toNat_inj.mp h0)
  rw [DigitDivision.mul_div_split _ _ hcpos]
  have hres : ((a / c) * b + (a % c) * (b / c)).toNat
      = (a.toNat / c.toNat * b.toNat + a.toNat % c.toNat * (b.toNat / c.toNat)) % 2 ^ 64 := by
    simp only [UInt64.toNat_add, UInt64.toNat_mul, UInt64.toNat_div, UInt64.toNat_mod]
    rw [← Nat.add_mod]
  have halt : (a % c).toNat < c.toNat := by rw [UInt64.toNat_mod]; exact Nat.mod_lt _ hcpos
  have hblt : (b % c).toNat < c.toNat := by rw [UInt64.toNat_mod]; exact Nat.mod_lt _ hcpos
  rw [← UInt64.toNat_mod a, ← UInt64.toNat_mod b] at *
  unfold muldiv64Windows
  generalize (a / c) * b + (a % c) * (b / c) = res at *
  generalize hX : a.toNat / c.toNat * b.toNat + (a % c).toNat * (b.toNat / c.toNat) = X at *
  generalize a % c = a at *
  generalize b % c = b at *
  dsimp only
  by_cases hzero : a = 0 ∨ b = 0
  · have hprod : a.toNat * b.toNat = 0 := by
      rcases hzero with rfl | rfl
      · exact Nat.zero_mul _
      · exact Nat.mul_zero _
    rw [if_pos hzero, hres, hprod, Nat.zero_div, Nat.add_zero]
  rw [if_neg hzero]
  by_cases hsmall : c < base
  · rw [if_pos hsmall, UInt64.toNat_add, hres, UInt64.toNat_div]
    rw [UInt64.lt_iff_toNat_lt, toNat_base] at hsmall
    rw [(toNat_mul_digits (lt_trans halt hsmall) (lt_trans hblt hsmall)).1]
    omega
  rw [if_neg hsmall]
  rw [UInt64.lt_iff_toNat_lt, toNat_base, Nat.not_lt] at hsmall
  have hnorm : 0 < (2 ^ 64 - 1) / c.toNat := Nat.div_pos (Nat.le_sub_one_of_lt c.toNat_lt) hcpos
  have hdigits := toNat_quotientDigits (a * (maxdiv / c)) b (c := c * (maxdiv / c))
    (by rw [toNat_mul_norm le_rfl]; exact le_trans hsmall (Nat.le_mul_of_pos_right _ hnorm))
  rw [div_mul_norm hcpos halt.le] at hdigits
  simp only [UInt64.toNat_add, UInt64.toNat_mul, toNat_base, hres]
  omega

/-- **Both branches return the quotient modulo `2 ^ 64`.** -/
theorem muldiv64_branches_agree (a b c : UInt64) (hc : c ≠ 0) :
    muldiv64Windows a b c = muldiv64Wide a b c ∧
      (muldiv64Windows a b c).toNat = a.toNat * b.toNat / c.toNat % 2 ^ 64 := by
  have hwindows := toNat_muldiv64Windows a b hc
  exact ⟨UInt64.toNat_inj.mp (hwindows.trans (toNat_muldiv64Wide a b c).symm), hwindows⟩

/-- A division that needs both digits: the largest operands and the smallest divisor
that is not a digit. -/
theorem muldiv64_branches_agree_max :
    muldiv64Windows 0xffffffffffffffff 0xffffffffffffffff 0x100000000
        = muldiv64Wide 0xffffffffffffffff 0xffffffffffffffff 0x100000000 ∧
      (muldiv64Windows 0xffffffffffffffff 0xffffffffffffffff 0x100000000).toNat
        = 18446744065119617024 := by
  obtain ⟨heq, hval⟩ :=
    muldiv64_branches_agree 0xffffffffffffffff 0xffffffffffffffff 0x100000000 (by decide)
  exact ⟨heq, hval.trans (by decide +kernel)⟩

end TradingDesk.Utils
