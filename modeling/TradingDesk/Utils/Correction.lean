import TradingDesk.Utils.MulDiv

/-!
# TradingDesk.Utils.Correction

**The two loops of `muldiv64`** (`utils.cpp`), which adjust the estimated digits of the
quotient. Its comment says that a loop "will be executed at most twice for even bases", due
to the normalisation. Here a loop is the list of the states in which its condition is
evaluated, the last of which is the one it stops in.
-/

namespace TradingDesk.Utils

open TradingDesk.Core

/-! ### A loop -/

/-- A state of the loop: the digits of the divisor, the next digit of the dividend, the
estimate and what it leaves. -/
structure Correction where
  ch : UInt64
  cl : UInt64
  p : UInt64
  q : UInt64
  rhat : UInt64

namespace Correction

/-- The condition of the loop. -/
def Again (l : Correction) : Prop := base ≤ l.q ∨ (l.rhat < base ∧ l.rhat * base + l.p < l.q * l.cl)

instance (l : Correction) : Decidable l.Again :=
  inferInstanceAs (Decidable (base ≤ l.q ∨ (l.rhat < base ∧ l.rhat * base + l.p < l.q * l.cl)))

/-- The body of the loop. -/
def next (l : Correction) : Correction := { l with q := l.q - 1, rhat := l.rhat + l.ch }

/-- There is something to take the one from: the loop never turns a digit below zero, whatever
it is entered with. -/
theorem Again.next_q {l : Correction} (h : l.Again) : l.next.q.toNat + 1 = l.q.toNat := by
  have hpos : 0 < l.q.toNat := by
    rcases h with hbase | ⟨-, hexcess⟩
    · rw [UInt64.le_iff_toNat_le, toNat_base] at hbase
      omega
    · rw [UInt64.lt_iff_toNat_lt, UInt64.toNat_mul] at hexcess
      by_contra hzero
      rw [Nat.eq_zero_of_not_pos hzero, Nat.zero_mul] at hexcess
      exact absurd hexcess (Nat.not_lt_zero _)
  have hone : (l.q - 1).toNat = l.q.toNat - 1 :=
    UInt64.toNat_sub_of_le _ _ (UInt64.le_iff_toNat_le.mpr hpos)
  show (l.q - 1).toNat + 1 = l.q.toNat
  omega

/-- All states of the loop, in order. -/
def states (l : Correction) : List Correction :=
  if _ : l.Again then l :: l.next.states else [l]
termination_by l.q.toNat
decreasing_by
  rename_i hagain
  have := hagain.next_q
  omega

/-- The digit that the loop comes to. -/
def digit (l : Correction) : UInt64 := adjust l.ch l.cl l.p l.q l.rhat

/-- The digit is that of the last state. -/
theorem digit_eq_getLast? (l : Correction) : some l.digit = l.states.getLast?.map (·.q) := by
  induction l using states.induct with
  | case1 l h ih =>
      have hdigit : l.digit = l.next.digit := by
        rw [digit, adjust]
        exact if_pos h
      have hne : l.next.states ≠ [] := by
        intro hnil
        rw [hnil] at ih
        cases ih
      rw [states, dif_pos h, List.getLast?_cons, hdigit, ih, List.getLast?_eq_some_getLast hne]
      rfl
  | case2 l h =>
      have hdigit : l.digit = l.q := by
        rw [digit, adjust]
        exact if_neg h
      rw [states, dif_neg h, hdigit]
      rfl

/-- What the comment says about a loop: a round takes one from a digit that is not zero, there
are two rounds at most, and where the two sides of the comparison are evaluated, neither
wraps. -/
structure IsBounded (l : Correction) : Prop where
  rounds : l.states.length ≤ 2 + 1
  decrements : ∀ s ∈ l.states, s.Again → s.next.q.toNat + 1 = s.q.toNat
  fits : ∀ s ∈ l.states, s.q < base → s.rhat < base →
    s.q.toNat * s.cl.toNat < 2 ^ 64 ∧ s.rhat.toNat * base.toNat < 2 ^ 64 ∧
      s.rhat.toNat * base.toNat + s.p.toNat < 2 ^ 64

variable {l : Correction} {u : Nat}

/-- All states have the digits the loop is entered with. -/
theorem digits_of_mem {s : Correction} (h : s ∈ l.states) : s.cl = l.cl ∧ s.p = l.p := by
  induction l using states.induct with
  | case1 l hagain ih =>
      rw [states, dif_pos hagain] at h
      rcases List.mem_cons.mp h with rfl | h
      · exact ⟨rfl, rfl⟩
      · exact ih h
  | case2 l hstop =>
      rw [states, dif_neg hstop] at h
      obtain rfl := List.mem_singleton.mp h
      exact ⟨rfl, rfl⟩

/-- There are as many rounds as the estimate is above the digit. -/
theorem length_states (hcl : l.cl.toNat < 2 ^ 32) (hp : l.p.toNat < 2 ^ 32) (hu : u < 2 ^ 64)
    (hc : u < l.ch.toNat * 2 ^ 32 + l.cl.toNat) (h : Estimate l.ch l.cl l.p u l.q l.rhat) :
    l.states.length + (u * 2 ^ 32 + l.p.toNat) / (l.ch.toNat * 2 ^ 32 + l.cl.toNat)
      = l.q.toNat + 1 := by
  induction l using states.induct with
  | case1 l hagain ih =>
      obtain ⟨hq, hnext⟩ := h.next hu (h.digit_lt hcl hp hc hagain)
      have hlen := ih hcl hp hc hnext
      have hq' : l.next.q.toNat + 1 = l.q.toNat := hq
      rw [states, dif_pos hagain, List.length_cons]
      rw [show l.next.ch = l.ch from rfl, show l.next.cl = l.cl from rfl,
        show l.next.p = l.p from rfl] at hlen
      omega
  | case2 l hstop =>
      rw [states, dif_neg hstop, h.eq_digit hcl hp hc hstop, List.length_singleton, Nat.add_comm]

/-- **A normalised loop is bounded.** -/
theorem isBounded (hch : 2 ^ 31 ≤ l.ch.toNat) (hcl : l.cl.toNat < 2 ^ 32)
    (hp : l.p.toNat < 2 ^ 32) (hu : u < 2 ^ 64) (hc : u < l.ch.toNat * 2 ^ 32 + l.cl.toNat)
    (h : Estimate l.ch l.cl l.p u l.q l.rhat) (hq : l.q.toNat = u / l.ch.toNat) :
    l.IsBounded where
  rounds := by
    have hlen := length_states hcl hp hu hc h
    have hover := @DigitDivision.estimate_le_digit_add_two (2 ^ 32) l.ch.toNat l.cl.toNat u
      l.p.toNat (by omega) hcl hc
    omega
  decrements := fun _ _ hagain => hagain.next_q
  fits := by
    intro s hs hsq hsr
    obtain ⟨hcl', hp'⟩ := digits_of_mem hs
    rw [UInt64.lt_iff_toNat_lt, toNat_base] at hsq hsr
    rw [hcl', hp', toNat_base]
    have hprod : s.q.toNat * l.cl.toNat ≤ (2 ^ 32 - 1) * (2 ^ 32 - 1) :=
      Nat.mul_le_mul (by omega) (by omega)
    omega

/-- A loop as it is entered, for the divisor `c` and the dividend `u` with the digit `p`. -/
def enter (c p u : UInt64) : Correction := ⟨c / base, c % base, p, u / (c / base), u % (c / base)⟩

theorem enter_isBounded {c p u : UInt64} (hc : 2 ^ 63 ≤ c.toNat) (hp : p.toNat < 2 ^ 32)
    (hu : u.toNat < c.toNat) : (enter c p u).IsBounded := by
  have hch : 2 ^ 31 ≤ (c / base).toNat := by rw [toNat_div_base]; omega
  exact isBounded hch (toNat_mod_base_lt c) hp u.toNat_lt (by rw [← toNat_digits c] at hu; exact hu)
    (estimate_div (lt_of_lt_of_le (by decide) hch) hp) (UInt64.toNat_div _ _)

end Correction

/-! ### The loops of a call -/

/-- The two loops of the long division, for operands that are normalised. -/
def loops (a b c : UInt64) : Correction × Correction :=
  let (p2, p1, p0) := product a b
  let p2 := p2 % c
  let first := Correction.enter c p1 p2
  let p1 := subtract (c / base) (c % base) first.digit p2 p1
  (first, .enter c p0 p1)

theorem quotientDigits_eq (a b c : UInt64) :
    quotientDigits a b c = ((loops a b c).1.digit, (loops a b c).2.digit) := rfl

/-- The two loops that a call of `muldiv64` comes to, if it comes to the long division. -/
def corrections (a b c : UInt64) : Option (Correction × Correction) :=
  let a := a % c
  let b := b % c
  if a = 0 ∨ b = 0 then none
  else if c < base then none
  else some (loops (a * (maxdiv / c)) b (c * (maxdiv / c)))

/-- The loops of a normalised division are bounded, and end at digits. -/
theorem loops_isBounded (a b : UInt64) {c : UInt64} (hc : 2 ^ 63 ≤ c.toNat) :
    ((loops a b c).1.IsBounded ∧ (loops a b c).1.digit.toNat < 2 ^ 32) ∧
      ((loops a b c).2.IsBounded ∧ (loops a b c).2.digit.toNat < 2 ^ 32) := by
  obtain ⟨-, hp1, hp0⟩ := toNat_product a b
  unfold loops
  generalize product a b = p at *
  obtain ⟨p2, p1, p0⟩ := p
  dsimp only at hp1 hp0 ⊢
  have hdigit : ∀ {p u : UInt64}, p.toNat < 2 ^ 32 → u.toNat < c.toNat →
      (Correction.enter c p u).digit.toNat = (u.toNat * 2 ^ 32 + p.toNat) / c.toNat :=
    fun hp hu => toNat_adjust_estimate (by omega) hp hu
  have hp2 : (p2 % c).toNat < c.toNat := by
    rw [UInt64.toNat_mod]
    exact Nat.mod_lt _ (by omega)
  -- the dividend of the second loop is what the first one leaves
  have hq1 := hdigit hp1 hp2
  have hrem := toNat_subtract_remainder (by omega) hp1 hp2 hq1
  have hlt :
      (subtract (c / base) (c % base) (Correction.enter c p1 (p2 % c)).digit (p2 % c) p1).toNat
      < c.toNat := by
    rw [hrem]
    exact Nat.mod_lt _ (by omega)
  refine ⟨⟨Correction.enter_isBounded hc hp1 hp2, ?_⟩, Correction.enter_isBounded hc hp0 hlt, ?_⟩
  · rw [hq1]
    exact DigitDivision.digit_lt hp2 hp1
  · rw [hdigit hp0 hlt]
    exact DigitDivision.digit_lt hlt hp0

/-- **The correction loops are bounded as documented.** For every call that comes to the long
division, each of the two loops takes at most two from its digit and never goes below zero,
nothing in its condition wraps, and it ends at the digit of the quotient in base `2 ^ 32`. What
the call returns is put together from these digits. -/
theorem corrections_bounded {a b c : UInt64} (hc : base ≤ c) (ha : a % c ≠ 0) (hb : b % c ≠ 0) :
    ∃ first second, corrections a b c = some (first, second) ∧
      first.IsBounded ∧ second.IsBounded ∧
      first.digit.toNat = (a % c).toNat * (b % c).toNat / c.toNat / 2 ^ 32 ∧
      second.digit.toNat = (a % c).toNat * (b % c).toNat / c.toNat % 2 ^ 32 ∧
      first.digit < base ∧ second.digit < base ∧
      muldiv64Windows a b c
        = (a / c) * b + (a % c) * (b / c) + second.digit + first.digit * base := by
  rw [UInt64.le_iff_toNat_le, toNat_base] at hc
  have hcpos : 0 < c.toNat := by omega
  have hzero : ¬ (a % c = 0 ∨ b % c = 0) := not_or.mpr ⟨ha, hb⟩
  have hsmall : ¬ c < base := by
    rw [UInt64.lt_iff_toNat_lt, toNat_base]
    omega
  have halt : (a % c).toNat < c.toNat := by rw [UInt64.toNat_mod]; exact Nat.mod_lt _ hcpos
  have hblt : (b % c).toNat < c.toNat := by rw [UInt64.toNat_mod]; exact Nat.mod_lt _ hcpos
  -- the leading digit of the normalised divisor is at least half the base
  have hnorm : 2 ^ 63 ≤ (c * (maxdiv / c)).toNat := by
    have := DigitDivision.le_two_mul_mul_div hcpos (Nat.le_sub_one_of_lt c.toNat_lt)
    rw [toNat_mul_norm le_rfl]
    omega
  obtain ⟨⟨hfirst, hfirstlt⟩, hsecond, hsecondlt⟩ :=
    loops_isBounded (a % c * (maxdiv / c)) (b % c) hnorm
  have hdigits := toNat_quotientDigits (a % c * (maxdiv / c)) (b % c) (c := c * (maxdiv / c))
    (by omega)
  rw [div_mul_norm hcpos halt.le, quotientDigits_eq] at hdigits
  -- the quotient is below the divisor, so the two digits are all of it
  have hquot : (a % c).toNat * (b % c).toNat / c.toNat < 2 ^ 64 :=
    lt_of_lt_of_le (Nat.div_lt_of_lt_mul (Nat.mul_lt_mul'' halt hblt)) c.toNat_lt.le
  have hcall : muldiv64Windows a b c = (a / c) * b + (a % c) * (b / c)
      + (loops (a % c * (maxdiv / c)) (b % c) (c * (maxdiv / c))).2.digit
      + (loops (a % c * (maxdiv / c)) (b % c) (c * (maxdiv / c))).1.digit * base := by
    rw [muldiv64Windows, if_neg hzero, if_neg hsmall]
    simp only [quotientDigits_eq]
  dsimp only at hdigits
  generalize (a % c).toNat * (b % c).toNat / c.toNat = q at *
  refine ⟨_, _, by rw [corrections, if_neg hzero, if_neg hsmall], hfirst, hsecond, ?_, ?_,
    UInt64.lt_iff_toNat_lt.mpr (by rwa [toNat_base]),
    UInt64.lt_iff_toNat_lt.mpr (by rwa [toNat_base]), hcall⟩
  · omega
  · omega

/-- A division whose loops take one from the first estimate and two from the second. -/
theorem corrections_one_and_two :
    ∃ first second, corrections 0x80000001fffffd36 0x1a2b8f1ff1fd42a2 0x80000001ffffffff
        = some (first, second) ∧ first.IsBounded ∧ second.IsBounded ∧
      first.digit.toNat = 439062303 ∧ second.digit.toNat = 4059906576 := by
  obtain ⟨first, second, hcall, hfirst, hsecond, hhigh, hlow, -⟩ :=
    @corrections_bounded 0x80000001fffffd36 0x1a2b8f1ff1fd42a2 0x80000001ffffffff (by decide)
      (by decide) (by decide)
  exact ⟨first, second, hcall, hfirst, hsecond, hhigh.trans (by decide +kernel),
    hlow.trans (by decide +kernel)⟩

end TradingDesk.Utils
