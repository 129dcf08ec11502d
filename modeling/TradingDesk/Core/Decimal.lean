import Mathlib.Data.Nat.Digits.Defs

/-!
# TradingDesk.Core.Decimal

**Decimal text.** Texts are byte strings. `intText` is the canonical decimal text of an
integer, `rightAlign` pads a text with zeros, and `parseInt` reads an optional sign
and a fixed number of digits. On the numbers that have `w` digits, padding to `w`
writes exactly those digits (`padDigits`), reading gets the number back, and the
order of the texts is the order of the numbers.
-/

namespace TradingDesk.Core

/-- The bytes of an ASCII literal. -/
def ascii (s : String) : List UInt8 := s.toList.map Char.toUInt8

/-- The byte of a decimal digit. -/
def digit (d : Nat) : UInt8 := UInt8.ofNat (48 + d)

theorem toNat_digit {d : Nat} (h : d < 10) : (digit d).toNat = 48 + d :=
  UInt8.toNat_ofNat_of_lt' (by show 48 + d < 256; omega)

/-! ### Writing -/

/-- The decimal text of a natural number. -/
def natText (n : Nat) : List UInt8 :=
  if n = 0 then [digit 0] else (Nat.digits 10 n).reverse.map digit

/-- The decimal text of an integer. -/
def intText (z : Int) : List UInt8 :=
  if z < 0 then '-'.toUInt8 :: natText z.natAbs else natText z.natAbs

/-- Pad a text with zeros in front, up to a width. -/
def rightAlign (w : Nat) (text : List UInt8) : List UInt8 :=
  List.replicate (w - text.length) (digit 0) ++ text

/-- The lowest `w` digits of a number. -/
def padDigits : Nat → Nat → List UInt8
  | 0, _ => []
  | w + 1, n => digit (n / 10 ^ w % 10) :: padDigits w n

@[simp] theorem length_padDigits (w n : Nat) : (padDigits w n).length = w := by
  induction w with
  | zero => rfl
  | succ w ih => rw [padDigits, List.length_cons, ih]

/-- The lowest digit, split off. -/
theorem padDigits_succ (w n : Nat) :
    padDigits (w + 1) n = padDigits w (n / 10) ++ [digit (n % 10)] := by
  induction w with
  | zero => simp [padDigits]
  | succ w ih =>
      rw [padDigits, ih, padDigits, List.cons_append, Nat.div_div_eq_div_mul, ← pow_succ']

theorem padDigits_zero (w : Nat) : padDigits w 0 = List.replicate w (digit 0) := by
  induction w with
  | zero => rfl
  | succ w ih => rw [padDigits, ih, Nat.zero_div, List.replicate_succ]

/-- The text of a number with more than one digit. -/
theorem natText_of_ge {n : Nat} (h : 10 ≤ n) :
    natText n = natText (n / 10) ++ [digit (n % 10)] := by
  have hn : n ≠ 0 := by omega
  have hq : n / 10 ≠ 0 := by omega
  rw [natText, if_neg hn, natText, if_neg hq, Nat.digits_def' (by norm_num) (Nat.pos_of_ne_zero hn)]
  simp

theorem natText_of_lt {n : Nat} (h : n < 10) : natText n = [digit n] := by
  by_cases hn : n = 0
  · rw [natText, if_pos hn, hn]
  · rw [natText, if_neg hn, Nat.digits_of_lt 10 n hn h]
    rfl

/-- A number with at most `w` digits, padded to `w`. -/
theorem rightAlign_natText {w n : Nat} (h : n < 10 ^ w) (hw : 0 < w) :
    rightAlign w (natText n) = padDigits w n ∧ (natText n).length ≤ w := by
  induction w generalizing n with
  | zero => exact absurd hw (Nat.lt_irrefl 0)
  | succ w ih =>
      by_cases hn : n < 10
      · have hzero : n / 10 = 0 := Nat.div_eq_of_lt hn
        rw [natText_of_lt hn, padDigits_succ, hzero, padDigits_zero, Nat.mod_eq_of_lt hn]
        exact ⟨rfl, by simp⟩
      · have hw' : 0 < w := by
          rcases Nat.eq_zero_or_pos w with rfl | hpos
          · simp only [zero_add, pow_one] at h
            omega
          · exact hpos
        have hlt : n / 10 < 10 ^ w := by
          rw [pow_succ] at h
          omega
        obtain ⟨hpad, hlen⟩ := ih hlt hw'
        rw [natText_of_ge (by omega), padDigits_succ, ← hpad]
        simp only [rightAlign, List.length_append, List.length_singleton, List.append_assoc]
        exact ⟨by rw [Nat.add_sub_add_right], by omega⟩

/-- All bytes of a number's text are digits. -/
theorem natText_digits {n : Nat} {c : UInt8} (h : c ∈ natText n) : 48 ≤ c.toNat ∧ c.toNat < 58 := by
  have hdigit : ∀ {d}, d < 10 → 48 ≤ (digit d).toNat ∧ (digit d).toNat < 58 := by
    intro d hd
    rw [toNat_digit hd]
    omega
  rw [natText] at h
  split at h
  · rw [List.mem_singleton] at h
    rw [h]
    exact hdigit (by decide)
  · obtain ⟨d, hd, rfl⟩ := List.mem_map.mp h
    exact hdigit (Nat.digits_lt_base (by decide) (List.mem_reverse.mp hd))

/-- A number with more than `w` digits. -/
theorem lt_length_natText {w n : Nat} (h : 10 ^ w ≤ n) : w < (natText n).length := by
  induction w generalizing n with
  | zero =>
      by_cases hn : n < 10
      · rw [natText_of_lt hn]
        exact Nat.zero_lt_one
      · rw [natText_of_ge (by omega)]
        simp
  | succ w ih =>
      rw [pow_succ] at h
      have hpos : 0 < 10 ^ w := by positivity
      have hlen := ih (n := n / 10) (by omega)
      rw [natText_of_ge (by omega), List.length_append, List.length_singleton]
      omega

/-- A sign is among the first bytes. -/
theorem minus_mem_take_rightAlign {w : Nat} {z : Int} (hw : 0 < w) (h : z < 0) (rest : List UInt8) :
    '-'.toUInt8 ∈ (rightAlign w (intText z) ++ rest).take w := by
  rw [rightAlign, intText, if_pos h, List.append_assoc, List.take_append, List.mem_append]
  refine Or.inr ?_
  have hpos :
      0 < w - (List.replicate (w - ('-'.toUInt8 :: natText z.natAbs).length) (digit 0)).length := by
    rw [List.length_replicate, List.length_cons]
    omega
  obtain ⟨k, hk⟩ := Nat.exists_eq_add_of_lt hpos
  rw [hk, List.cons_append, Nat.zero_add, List.take_succ_cons]
  exact List.mem_cons_self

theorem rightAlign_intText {w : Nat} {z : Int} (h0 : 0 ≤ z) (h : z < 10 ^ w) (hw : 0 < w) :
    rightAlign w (intText z) = padDigits w z.toNat := by
  obtain ⟨n, rfl⟩ := Int.eq_ofNat_of_zero_le h0
  have hnat : n < 10 ^ w := by exact_mod_cast h
  rw [intText, if_neg (by omega)]
  exact (rightAlign_natText hnat hw).1

/-! ### Reading -/

/-- Read exactly `w` digits behind the number `acc`. -/
def parseDigits : Nat → Nat → List UInt8 → Option (Nat × List UInt8)
  | 0, acc, text => some (acc, text)
  | _ + 1, _, [] => none
  | w + 1, acc, c :: text =>
    if 48 ≤ c.toNat ∧ c.toNat < 58 then parseDigits w (acc * 10 + (c.toNat - 48)) text else none

/-- Read an optional sign and exactly `w` digits. -/
def parseInt (w : Nat) : List UInt8 → Option (Int × List UInt8)
  | [] => none
  | c :: text =>
    if c = '-'.toUInt8 then (parseDigits w 0 text).map fun r => (-(r.1 : Int), r.2)
    else if c = '+'.toUInt8 then (parseDigits w 0 text).map fun r => ((r.1 : Int), r.2)
    else (parseDigits w 0 (c :: text)).map fun r => ((r.1 : Int), r.2)

theorem parseDigits_padDigits (w acc n : Nat) (rest : List UInt8) :
    parseDigits w acc (padDigits w n ++ rest) = some (acc * 10 ^ w + n % 10 ^ w, rest) := by
  induction w generalizing acc with
  | zero => simp [parseDigits, padDigits, Nat.mod_one]
  | succ w ih =>
      have hdigit : n / 10 ^ w % 10 < 10 := Nat.mod_lt _ (by norm_num)
      rw [padDigits, List.cons_append, parseDigits, toNat_digit hdigit, if_pos (by omega), ih,
        Nat.add_sub_cancel_left, Nat.mod_pow_succ, pow_succ]
      congr 2
      ring

/-- Reading gets back what padding wrote. -/
theorem parseInt_padDigits {w n : Nat} (h : n < 10 ^ (w + 1)) (rest : List UInt8) :
    parseInt (w + 1) (padDigits (w + 1) n ++ rest) = some ((n : Int), rest) := by
  have hdigit : n / 10 ^ w % 10 < 10 := Nat.mod_lt _ (by norm_num)
  have hsign : ∀ c : UInt8, c.toNat < 48 → digit (n / 10 ^ w % 10) ≠ c := by
    intro c hc heq
    have := toNat_digit hdigit
    rw [heq] at this
    omega
  have hread := parseDigits_padDigits (w + 1) 0 n rest
  rw [padDigits, List.cons_append] at hread ⊢
  rw [parseInt, if_neg (hsign _ (by decide)), if_neg (hsign _ (by decide)), hread, Nat.zero_mul,
    Nat.zero_add, Nat.mod_eq_of_lt h]
  rfl

/-- What was read has at most `w` digits. -/
theorem parseDigits_lt {w acc n : Nat} {text rest : List UInt8}
    (h : parseDigits w acc text = some (n, rest)) : n < (acc + 1) * 10 ^ w := by
  induction w generalizing acc text with
  | zero =>
      obtain ⟨rfl, -⟩ : acc = n ∧ text = rest := by simpa [parseDigits] using h
      omega
  | succ w ih =>
      cases text with
      | nil => simp [parseDigits] at h
      | cons c text =>
          rw [parseDigits] at h
          split at h
          · have hlt := ih h
            have hle : acc * 10 + (c.toNat - 48) + 1 ≤ (acc + 1) * 10 := by omega
            calc n < (acc * 10 + (c.toNat - 48) + 1) * 10 ^ w := hlt
              _ ≤ (acc + 1) * 10 * 10 ^ w := Nat.mul_le_mul_right _ hle
              _ = (acc + 1) * 10 ^ (w + 1) := by ring
          · cases h

theorem parseInt_bounds {w : Nat} {z : Int} {text rest : List UInt8}
    (h : parseInt w text = some (z, rest)) : -(10 ^ w) < z ∧ z < 10 ^ w := by
  have hbound : ∀ {r text}, parseDigits w 0 text = some r → (r.1 : Int) < 10 ^ w := by
    intro r text hread
    have := parseDigits_lt (n := r.1) hread
    rw [Nat.zero_add, Nat.one_mul] at this
    exact_mod_cast this
  cases text with
  | nil => simp [parseInt] at h
  | cons c text =>
      rw [parseInt] at h
      split at h
      · obtain ⟨r, hr, heq⟩ := Option.map_eq_some_iff.mp h
        cases heq
        have := hbound hr
        omega
      · split at h
        · obtain ⟨r, hr, heq⟩ := Option.map_eq_some_iff.mp h
          cases heq
          have := hbound hr
          omega
        · obtain ⟨r, hr, heq⟩ := Option.map_eq_some_iff.mp h
          cases heq
          have := hbound hr
          omega

/-! ### Comparing -/

/-- Texts with a common beginning compare as what is behind it. -/
theorem append_lt_append_left (p x y : List UInt8) : p ++ x < p ++ y ↔ x < y := by
  induction p with
  | nil => rfl
  | cons b p ih => simp [ih]

theorem digit_lt_digit {d e : Nat} (hd : d < 10) (he : e < 10) : digit d < digit e ↔ d < e := by
  rw [UInt8.lt_iff_toNat_lt, toNat_digit hd, toNat_digit he]
  omega

theorem digit_inj {d e : Nat} (hd : d < 10) (he : e < 10) : digit d = digit e ↔ d = e := by
  rw [← UInt8.toNat_inj, toNat_digit hd, toNat_digit he]
  omega

/-- Texts that start with digits of one width compare as the numbers do, and then as
what is behind them. -/
theorem padDigits_append_lt (w m n : Nat) (x y : List UInt8) :
    padDigits w m ++ x < padDigits w n ++ y ↔
      m % 10 ^ w < n % 10 ^ w ∨ (m % 10 ^ w = n % 10 ^ w ∧ x < y) := by
  induction w with
  | zero => simp [padDigits, Nat.mod_one]
  | succ w ih =>
      have hm : m / 10 ^ w % 10 < 10 := Nat.mod_lt _ (by norm_num)
      have hn : n / 10 ^ w % 10 < 10 := Nat.mod_lt _ (by norm_num)
      have hm' : m % 10 ^ w < 10 ^ w := Nat.mod_lt _ (by positivity)
      have hn' : n % 10 ^ w < 10 ^ w := Nat.mod_lt _ (by positivity)
      rw [padDigits, padDigits, List.cons_append, List.cons_append, List.cons_lt_cons_iff, ih,
        digit_lt_digit hm hn, digit_inj hm hn, Nat.mod_pow_succ, Nat.mod_pow_succ]
      generalize m / 10 ^ w % 10 = p at *
      generalize n / 10 ^ w % 10 = q at *
      generalize m % 10 ^ w = a at *
      generalize n % 10 ^ w = b at *
      generalize 10 ^ w = t at *
      -- the first digits decide, unless they are equal
      rcases Nat.lt_trichotomy p q with hpq | rfl | hpq
      · have : t * p + t ≤ t * q := by nlinarith
        constructor
        · intro _
          exact Or.inl (by omega)
        · intro _
          exact Or.inl hpq
      · simp [Nat.add_right_cancel_iff]
      · have : t * q + t ≤ t * p := by nlinarith
        constructor
        · rintro (h | ⟨h, -⟩) <;> omega
        · rintro (h | ⟨h, -⟩) <;> omega

/-- A byte that is no digit. -/
theorem notMem_padDigits {c : UInt8} (h : c.toNat < 48 ∨ 58 ≤ c.toNat) (w n : Nat) :
    c ∉ padDigits w n := by
  induction w with
  | zero => exact List.not_mem_nil
  | succ w ih =>
      have hdigit : n / 10 ^ w % 10 < 10 := Nat.mod_lt _ (by norm_num)
      have hne : c ≠ digit (n / 10 ^ w % 10) := by
        intro heq
        rw [heq, toNat_digit hdigit] at h
        omega
      rw [padDigits, List.mem_cons, not_or]
      exact ⟨hne, ih⟩

theorem padDigits_inj {w m n : Nat} (hm : m < 10 ^ w) (hn : n < 10 ^ w)
    (h : padDigits w m = padDigits w n) : m = n := by
  have hread := parseDigits_padDigits w 0 m []
  rw [h, parseDigits_padDigits, Nat.mod_eq_of_lt hm, Nat.mod_eq_of_lt hn] at hread
  simpa using hread.symm

/-- **A padded number that fits.** A text that starts with `w` digits, and then something
else, is not that of a number with a sign or with more digits. -/
theorem range_of_isPrefix {w n : Nat} {z : Int} {c : UInt8} {x y : List UInt8} (hw : 0 < w)
    (hc : c.toNat < 48 ∨ 58 ≤ c.toNat)
    (h : padDigits w n ++ c :: x <+: rightAlign w (intText z) ++ y) : 0 ≤ z ∧ z < 10 ^ w := by
  obtain ⟨rest, hrest⟩ := h
  have hsign : 0 ≤ z := by
    by_contra hneg
    have hmem := minus_mem_take_rightAlign hw (not_le.mp hneg) y
    rw [← hrest, List.append_assoc, List.take_append_of_le_length (by simp),
      List.take_of_length_le (by simp)] at hmem
    exact notMem_padDigits (Or.inl (by decide)) w n hmem
  refine ⟨hsign, ?_⟩
  -- one more digit would be where the text has something else
  by_contra hlong
  obtain ⟨m, rfl⟩ := Int.eq_ofNat_of_zero_le hsign
  have hlen := @lt_length_natText w m (by exact_mod_cast not_lt.mp hlong)
  have halign : rightAlign w (intText m) = natText m := by
    rw [rightAlign, intText, if_neg (by omega), Int.natAbs_natCast,
      Nat.sub_eq_zero_of_le (by omega)]
    rfl
  have hat : (padDigits w n ++ c :: (x ++ rest))[w]? = (natText m ++ y)[w]? := by
    rw [← halign, ← hrest, List.append_assoc, List.cons_append]
  rw [List.getElem?_append_right (by simp), List.getElem?_append_left hlen,
    List.getElem?_eq_getElem hlen, length_padDigits, Nat.sub_self, List.getElem?_cons_zero,
    Option.some.injEq] at hat
  have hdigit := natText_digits (List.getElem_mem hlen)
  rw [← hat] at hdigit
  omega

end TradingDesk.Core
