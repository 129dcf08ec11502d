import Mathlib.Data.List.TakeWhile
import TradingDesk.Utils.IntToString

/-!
# TradingDesk.Utils.IntFromString

**Integers from text** (`int_from_string` of `stringify.hpp`), read by Qi (`extract_int.hpp` and its
`numeric_utils.hpp`): leading zeros, then the first digit, then a loop that does not check for
overflow as long as the digits are few. The counter of the digits starts with the number of zeros
and leaves out the first digit, of which the source says "I think this is wrong".

The result is assigned even if the text is not accepted. An addition that is not checked and
overflows is undefined, which is `none`.
-/

namespace TradingDesk.Utils

open TradingDesk.Core

/-! ### Limits -/

namespace IntegerType

/-- `std::numeric_limits<Integer>::digits`. -/
def digits (t : IntegerType) : ℕ := if t.signed then 8 * t.size - 1 else 8 * t.size

/-- `const_max`. -/
def max (t : IntegerType) : ℤ := 2 ^ t.digits - 1

/-- `const_min`. -/
def min (t : IntegerType) : ℤ := if t.signed then -2 ^ t.digits else 0

/-- `digits_traits<T, 10>::value`. -/
def decimalDigits (t : IntegerType) : ℕ := t.digits * 1000000 / 3321920

/-- `overflow_free`. -/
def overflowFree (t : IntegerType) : ℕ := t.decimalDigits - 1

end IntegerType

/-! ### Accumulators -/

/-- `is_valid`. -/
def isDigit (ch : UInt8) : Bool := decide (48 ≤ ch.toNat ∧ ch.toNat ≤ 57)

/-- `add` without a check, of `positive_accumulator` and `negative_accumulator`. -/
def addUnchecked (t : IntegerType) (negative : Bool) (n : ℤ) (digit : ℕ) : Option ℤ :=
  let sum := if negative then n * 10 - digit else n * 10 + digit
  if t.min ≤ sum ∧ sum ≤ t.max then some sum else none

/-- `add` with a check. An error has what is left in `n`. -/
def addChecked (t : IntegerType) (negative : Bool) (n : ℤ) (digit : ℕ) : Except ℤ ℤ :=
  if negative then
    if n < (t.min + 1).tdiv 10 then .error n
    else if n * 10 < t.min + digit then .error (n * 10)
    else .ok (n * 10 - digit)
  else
    if n > t.max.tdiv 10 then .error n
    else if n * 10 > t.max - digit then .error (n * 10)
    else .ok (n * 10 + digit)

/-- `int_extractor::call`. -/
def extract (t : IntegerType) (negative : Bool) (ch : UInt8) (count : ℕ) (n : ℤ) :
    Option (Except ℤ ℤ) :=
  let digit := ch.toNat - 48
  if count < t.overflowFree then (addUnchecked t negative n digit).map .ok
  else some (addChecked t negative n digit)

/-! ### The parser -/

/-- The loop of `parse_main`: whether it ends well, the text that is left, and the number. -/
def innerLoop (t : IntegerType) (negative : Bool) :
    List UInt8 → ℕ → ℤ → Option (Bool × List UInt8 × ℤ)
  | [], _, n => some (true, [], n)
  | ch :: it, count, n =>
    if isDigit ch then
      (extract t negative ch count n).bind fun r =>
        match r with
        | .error n => some (false, ch :: it, n)
        | .ok n => innerLoop t negative it (count + 1) n
    else some (true, ch :: it, n)

/-- `parse_main`. -/
def parseMain (t : IntegerType) (negative : Bool) (first : List UInt8) (attr : ℤ) :
    Option (Bool × List UInt8 × ℤ) :=
  let count := (first.takeWhile fun ch => ch = 48).length
  match first.dropWhile fun ch => ch = 48 with
  | [] => if count = 0 then some (false, first, attr) else some (true, [], 0)
  | ch :: it =>
    if isDigit ch then
      match extract t negative ch 0 0 with
      | none => none
      | some (.error val) => if count = 0 then some (false, first, attr)
          else some (true, ch :: it, val)
      | some (.ok val) => innerLoop t negative it count val
    else if count = 0 then some (false, first, attr) else some (true, ch :: it, 0)

/-- A text that was not parsed is left as it was. -/
def restore (save : List UInt8) : Bool × List UInt8 × ℤ → Bool × List UInt8 × ℤ
  | (false, _, attr) => (false, save, attr)
  | r => r

/-- `extract_int::call`, behind `extract_sign`. -/
def extractInt (t : IntegerType) (first : List UInt8) (attr : ℤ) : Option (Bool × List UInt8 × ℤ) :=
  match first with
  | [] => some (false, [], attr)
  | c :: rest =>
    let it := if c = 45 ∨ c = 43 then rest else c :: rest
    (parseMain t (c = 45) it attr).map (restore first)

/-- `extract_uint::call`. -/
def extractUint (t : IntegerType) (first : List UInt8) (attr : ℤ) :
    Option (Bool × List UInt8 × ℤ) :=
  match first with
  | [] => some (false, [], attr)
  | _ => (parseMain t false first attr).map (restore first)

/-- `int_from_string`: whether the text is accepted, and what is in `res`. -/
def intFromString (t : IntegerType) (str : List UInt8) (res : ℤ) : Option (Bool × ℤ) :=
  (if t.signed then extractInt t str res else extractUint t str res).map fun r =>
    (r.1 && r.2.1.isEmpty, r.2.2)

/-! ### Numbers of the type -/

/-- A number with its sign. -/
def signed (negative : Bool) (m : ℕ) : ℤ := if negative then -m else m

/-- The largest number with this sign. -/
def IntegerType.bound (t : IntegerType) (negative : Bool) : ℕ :=
  if negative then 2 ^ t.digits else 2 ^ t.digits - 1

/-- The type has numbers of this sign. -/
def IntegerType.Allows (t : IntegerType) (negative : Bool) : Prop :=
  negative = true → t.signed = true

namespace IntegerType

variable {t : IntegerType} {negative : Bool}

/-- As many digits fit as `digits_traits` says. The logarithm it divides by is rounded. -/
theorem pow_decimalDigits_le (t : IntegerType) : 10 ^ t.decimalDigits ≤ 2 ^ t.digits := by
  have hall : ∀ n < 560, 10 ^ (n * 1000000 / 3321920) ≤ 2 ^ n := by decide +kernel
  have hsize : t.size < 69 := by
    have := t.accepted
    unfold localBufferSize at this
    omega
  refine hall t.digits ?_
  unfold digits
  split <;> omega

/-- Digits that are few do not overflow. -/
theorem lt_bound_of_lt {m k count d : ℕ} (hm : m < 10 ^ k) (hk : k ≤ count + 1) (hd : d ≤ 9)
    (hcount : count < t.overflowFree) (negative : Bool) : m * 10 + d ≤ t.bound negative := by
  have hlt : m * 10 + d < 10 ^ (k + 1) := by
    rw [pow_succ]
    omega
  have hpow : 10 ^ (k + 1) ≤ 10 ^ t.decimalDigits := by
    refine Nat.pow_le_pow_right (by decide) ?_
    unfold overflowFree at hcount
    omega
  have hle := lt_of_lt_of_le hlt (hpow.trans t.pow_decimalDigits_le)
  unfold bound
  split <;> omega

theorem contains_signed_iff (h : t.Allows negative) {m : ℕ} :
    t.Contains (Utils.signed negative m) ↔ m ≤ t.bound negative := by
  have hpos : 0 < 2 ^ t.digits := by positivity
  have hcast : ((2 ^ t.digits : ℕ) : ℤ) = 2 ^ t.digits := by push_cast; rfl
  cases hsigned : t.signed with
  | true =>
      have hdigits : t.digits = 8 * t.size - 1 := by simp [digits, hsigned]
      simp only [Contains, hsigned, bound, Utils.signed, ← hdigits]
      cases negative <;> simp <;> omega
  | false =>
      have hdigits : t.digits = 8 * t.size := by simp [digits, hsigned]
      have hnegative : negative = false := by
        by_contra hne
        simp [h (by simpa using hne)] at hsigned
      subst hnegative
      simp only [Contains, hsigned, bound, Utils.signed, ← hdigits]
      simp
      omega

end IntegerType

/-! ### One digit -/

section

variable {t : IntegerType} {negative : Bool} {m d : ℕ}

/-- The limits of the type, in terms of its digits. -/
theorem IntegerType.limits (h : t.Allows negative) :
    t.max = ((2 ^ t.digits : ℕ) : ℤ) - 1 ∧ t.min ≤ 0 ∧
      (negative = true → t.min = -((2 ^ t.digits : ℕ) : ℤ)) := by
  refine ⟨by simp [max], ?_, fun hnegative => by simp [min, h hnegative]⟩
  unfold min
  split
  · exact neg_nonpos.mpr (by positivity)
  · exact le_rfl

theorem addUnchecked_eq (h : t.Allows negative) (hle : m * 10 + d ≤ t.bound negative) :
    addUnchecked t negative (signed negative m) d = some (signed negative (m * 10 + d)) := by
  obtain ⟨hmax, hzero, hmin⟩ := t.limits h
  have hpos : 0 < 2 ^ t.digits := by positivity
  rw [addUnchecked, hmax]
  unfold IntegerType.bound at hle
  generalize 2 ^ t.digits = b at *
  cases negative with
  | true =>
      rw [if_pos rfl] at hle
      simp only [signed, if_true, hmin]
      rw [if_pos (by omega)]
      congr 1
      push_cast
      ring
  | false =>
      rw [if_neg Bool.false_ne_true] at hle
      simp only [signed, Bool.false_eq_true, if_false]
      rw [if_pos (by omega)]
      push_cast
      rfl

/-- No power of two ends with a zero. -/
theorem two_pow_mod_ten (k : ℕ) : 2 ^ k % 10 ≠ 0 := by
  intro h
  have hfive : 5 ∣ 2 ^ k := Dvd.dvd.trans (by decide : 5 ∣ 10) (Nat.dvd_of_mod_eq_zero h)
  exact absurd ((Nat.Coprime.pow_right k (by decide : Nat.Coprime 5 2)).eq_one_of_dvd hfive)
    (by decide)

/-- **The check is exact.** -/
theorem addChecked_eq (h : t.Allows negative) (hd : d ≤ 9) :
    (m * 10 + d ≤ t.bound negative →
      addChecked t negative (signed negative m) d = .ok (signed negative (m * 10 + d))) ∧
    (t.bound negative < m * 10 + d → ∃ n, addChecked t negative (signed negative m) d
      = .error n) := by
  obtain ⟨hmax, -, hmin⟩ := t.limits h
  have hpos : 0 < 2 ^ t.digits := by positivity
  have hten := two_pow_mod_ten t.digits
  unfold IntegerType.bound addChecked
  rw [hmax]
  generalize 2 ^ t.digits = b at *
  cases negative with
  | true =>
      have hdiv : (-(b : ℤ) + 1).tdiv 10 = -(((b : ℤ) - 1) / 10) := by
        rw [show -(b : ℤ) + 1 = -((b : ℤ) - 1) from by ring, Int.neg_tdiv,
          Int.tdiv_eq_ediv_of_nonneg (by omega)]
      simp only [signed, if_true, hmin rfl, hdiv]
      constructor
      · intro hle
        rw [if_neg (by omega), if_neg (by omega)]
        congr 1
        push_cast
        ring
      · intro hlt
        by_cases hfirst : -(m : ℤ) < -(((b : ℤ) - 1) / 10)
        · exact ⟨_, if_pos hfirst⟩
        · exact ⟨_, by rw [if_neg hfirst, if_pos (by omega)]⟩
  | false =>
      have hdiv : ((b : ℤ) - 1).tdiv 10 = ((b : ℤ) - 1) / 10 :=
        Int.tdiv_eq_ediv_of_nonneg (by omega)
      simp only [signed, Bool.false_eq_true, if_false, hdiv]
      constructor
      · intro hle
        rw [if_neg (by omega), if_neg (by omega)]
        push_cast
        rfl
      · intro hlt
        by_cases hfirst : (m : ℤ) > ((b : ℤ) - 1) / 10
        · exact ⟨_, if_pos hfirst⟩
        · exact ⟨_, by rw [if_neg hfirst, if_pos (by omega)]⟩

/-- **One digit**, with or without a check. The digits so far are at most one more than the counter
says. -/
theorem extract_eq {ch : UInt8} {k count : ℕ} (h : t.Allows negative) (hch : isDigit ch = true)
    (hm : m < 10 ^ k) (hk : k ≤ count + 1) :
    (m * 10 + (ch.toNat - 48) ≤ t.bound negative →
      extract t negative ch count (signed negative m)
        = some (.ok (signed negative (m * 10 + (ch.toNat - 48))))) ∧
    (t.bound negative < m * 10 + (ch.toNat - 48) →
      ∃ n, extract t negative ch count (signed negative m) = some (.error n)) := by
  have hd : ch.toNat - 48 ≤ 9 := by
    have := of_decide_eq_true hch
    omega
  unfold extract
  by_cases hcount : count < t.overflowFree
  · have hsafe := IntegerType.lt_bound_of_lt hm hk hd hcount negative
    refine ⟨fun hle => ?_, fun hlt => absurd hsafe (not_le.mpr hlt)⟩
    rw [if_pos hcount, addUnchecked_eq h hle]
    rfl
  · obtain ⟨hok, herror⟩ := @addChecked_eq t negative m _ h hd
    simp only [if_neg hcount]
    exact ⟨fun hle => congrArg some (hok hle), fun hlt =>
      (herror hlt).imp fun n hn => congrArg some hn⟩

end

/-! ### All digits -/

/-- The number that digits stand for, behind others. -/
def digitsValue (m : ℕ) (digits : List UInt8) : ℕ :=
  digits.foldl (fun m ch => m * 10 + (ch.toNat - 48)) m

theorem digitsValue_cons (m : ℕ) (ch : UInt8) (digits : List UInt8) :
    digitsValue m (ch :: digits) = digitsValue (m * 10 + (ch.toNat - 48)) digits := by
  rw [digitsValue, List.foldl_cons]
  rfl

theorem le_digitsValue (m : ℕ) (digits : List UInt8) : m ≤ digitsValue m digits := by
  induction digits generalizing m with
  | nil => exact le_rfl
  | cons ch digits ih =>
      rw [digitsValue_cons]
      exact le_trans (by omega) (ih (m * 10 + (ch.toNat - 48)))

/-- A round of the loop. -/
theorem innerLoop_cons (t : IntegerType) (negative : Bool)
    (ch : UInt8) (it : List UInt8) (count : ℕ) (n : ℤ) :
    innerLoop t negative (ch :: it) count n =
      if isDigit ch then
        (extract t negative ch count n).bind fun r =>
          match r with
          | .error n => some (false, ch :: it, n)
          | .ok n => innerLoop t negative it (count + 1) n
      else some (true, ch :: it, n) := rfl

/-- **The loop** reads all digits, if their number is one of the type, and fails otherwise. -/
theorem innerLoop_eq {t : IntegerType} {negative : Bool} (h : t.Allows negative) (it : List UInt8)
    {m k count : ℕ} (hm : m < 10 ^ k) (hk : k ≤ count + 1) (hle : m ≤ t.bound negative) :
    (digitsValue m (it.takeWhile isDigit) ≤ t.bound negative →
      innerLoop t negative it count (signed negative m)
        = some (true, it.dropWhile isDigit, signed negative (digitsValue m (it.takeWhile isDigit))))
          ∧
    (t.bound negative < digitsValue m (it.takeWhile isDigit) →
      ∃ r, innerLoop t negative it count (signed negative m) = some (false, r)) := by
  induction it generalizing m k count with
  | nil => exact ⟨fun _ => rfl, fun hlt => absurd hle (not_le.mpr hlt)⟩
  | cons ch it ih =>
      cases hch : isDigit ch with
      | false =>
          rw [List.takeWhile_cons_of_neg (by simp [hch]),
            List.dropWhile_cons_of_neg (by simp [hch]), innerLoop_cons, if_neg (by simp [hch])]
          exact ⟨fun _ => rfl, fun hlt => absurd hle (not_le.mpr hlt)⟩
      | true =>
          rw [List.takeWhile_cons_of_pos hch, List.dropWhile_cons_of_pos hch, digitsValue_cons,
            innerLoop_cons, if_pos hch]
          obtain ⟨hok, herror⟩ := extract_eq h hch hm hk
          have hd : ch.toNat - 48 ≤ 9 := by
            have := of_decide_eq_true hch
            omega
          have hnext : m * 10 + (ch.toNat - 48) < 10 ^ (k + 1) := by
            rw [pow_succ]
            omega
          by_cases hfits : m * 10 + (ch.toNat - 48) ≤ t.bound negative
          · rw [hok hfits]
            exact ih hnext (Nat.add_le_add_right hk 1) hfits
          · -- an overflow of a part is one of the whole
            obtain ⟨n, hn⟩ := herror (not_le.mp hfits)
            have hpart := le_digitsValue (m * 10 + (ch.toNat - 48)) (it.takeWhile isDigit)
            rw [hn]
            exact ⟨fun hall => absurd (hpart.trans hall) hfits, fun _ => ⟨_, rfl⟩⟩

theorem digitsValue_append (m : ℕ) (digits digits' : List UInt8) :
    digitsValue m (digits ++ digits') = digitsValue (digitsValue m digits) digits' :=
      List.foldl_append

/-- Leading zeros. -/
theorem digitsValue_zeros {zeros : List UInt8} (h : ∀ ch ∈ zeros, ch = 48) :
    digitsValue 0 zeros = 0 := by
  induction zeros with
  | nil => rfl
  | cons ch zeros ih =>
      obtain ⟨rfl, hzeros⟩ := List.forall_mem_cons.mp h
      exact ih hzeros

/-- Every type has the digits. -/
theorem IntegerType.digit_le_bound (t : IntegerType) (negative : Bool) {d : ℕ} (hd : d ≤ 9) :
    d ≤ t.bound negative := by
  have hdigits : 7 ≤ t.digits := by
    have := t.size_pos
    unfold digits
    split <;> omega
  have hpow : 2 ^ 7 ≤ 2 ^ t.digits := Nat.pow_le_pow_right (by decide) hdigits
  unfold bound
  split <;> omega

/-- **The parser** reads a number of the type, if there is some digit, and fails otherwise. It fails
as well if the number is none of the type. -/
theorem parseMain_eq {t : IntegerType} {negative : Bool}
    (h : t.Allows negative) (first : List UInt8)
    (attr : ℤ) :
    (first.takeWhile isDigit ≠ [] ∧ digitsValue 0 (first.takeWhile isDigit) ≤ t.bound negative →
      parseMain t negative first attr
        = some
          (true, first.dropWhile isDigit,
            signed negative (digitsValue 0 (first.takeWhile isDigit)))) ∧
    (¬ (first.takeWhile isDigit ≠ [] ∧ digitsValue 0 (first.takeWhile isDigit) ≤ t.bound negative) →
      ∃ r, parseMain t negative first attr = some (false, r)) := by
  have hzero : signed negative 0 = 0 := by cases negative <;> rfl
  have hzeros : ∀ ch ∈ first.takeWhile (fun ch => decide (ch = 48)), ch = 48 := fun ch hch => by
    simpa using List.mem_takeWhile_imp hch
  have hdigits : ∀ ch ∈ first.takeWhile (fun ch => decide (ch = 48)), isDigit ch = true :=
    fun ch hch => by
    rw [hzeros ch hch]
    decide
  have hsplit := @List.takeWhile_append_dropWhile _ (fun ch : UInt8 => decide (ch = 48)) first
  have htake : first.takeWhile isDigit = first.takeWhile (fun ch => decide (ch = 48))
      ++ (first.dropWhile fun ch => decide (ch = 48)).takeWhile isDigit := by
    conv_lhs => rw [← hsplit]
    exact List.takeWhile_append_of_pos hdigits
  have hdrop : first.dropWhile isDigit
      = (first.dropWhile fun ch => decide (ch = 48)).dropWhile isDigit := by
    conv_lhs => rw [← hsplit]
    exact List.dropWhile_append_of_pos hdigits
  have hvalue : digitsValue 0 (first.takeWhile isDigit)
      = digitsValue 0 ((first.dropWhile fun ch => decide (ch = 48)).takeWhile isDigit) := by
    rw [htake, digitsValue_append, digitsValue_zeros hzeros]
  rw [hvalue, hdrop, htake, parseMain]
  generalize first.takeWhile (fun ch => decide (ch = 48)) = zeros at *
  generalize first.dropWhile (fun ch => decide (ch = 48)) = it at *
  have hcount : zeros.length = 0 ↔ zeros = [] := List.length_eq_zero_iff
  cases it with
  | nil =>
      by_cases hnil : zeros = []
      · simp [hnil]
      · simp [hnil, digitsValue, hzero]
  | cons ch it =>
      cases hch : isDigit ch with
      | false =>
          by_cases hnil : zeros = []
          · simp [hnil, hch]
          · simp [hnil, hch, digitsValue, hzero]
      | true =>
          have hd : ch.toNat - 48 ≤ 9 := by
            have := of_decide_eq_true hch
            omega
          have hfirst := t.digit_le_bound negative hd
          have hextract := (@extract_eq t negative 0 ch 0 0 h hch (by decide) (by decide)).1
            (by simpa using hfirst)
          rw [hzero, Nat.zero_mul, Nat.zero_add] at hextract
          -- the first digit is not counted, but the zeros are
          have hloop :=
            @innerLoop_eq t negative h it (ch.toNat - 48) 1 zeros.length
              (by omega) (by omega) hfirst
          have hdigit : digitsValue 0 (ch :: it.takeWhile isDigit)
              = digitsValue (ch.toNat - 48) (it.takeWhile isDigit) := by
            rw [digitsValue, List.foldl_cons, Nat.zero_mul, Nat.zero_add]
            rfl
          rw [List.takeWhile_cons_of_pos hch, List.dropWhile_cons_of_pos hch, hdigit]
          simp only [hch, if_true, hextract]
          refine ⟨fun hfits => hloop.1 hfits.2, fun hnot =>
            hloop.2 (not_le.mp fun hle => hnot ⟨by simp, hle⟩)⟩

/-! ### Texts -/

/-- The signs that a type takes, and whether they are negative. -/
inductive SignOf (t : IntegerType) : List UInt8 → Bool → Prop
  | none : SignOf t [] false
  | plus (h : t.signed = true) : SignOf t (ascii "+") false
  | minus (h : t.signed = true) : SignOf t (ascii "-") true

/-- What a text denotes, to a type: an optional sign, which unsigned types do not have, and some
decimal digits. -/
structure Denotes (t : IntegerType) (str : List UInt8)
    (negative : Bool) (sign digits : List UInt8) :
    Prop where
  text : str = sign ++ digits
  sign : SignOf t sign negative
  digits_ne_nil : digits ≠ []
  digits : ∀ ch ∈ digits, isDigit ch = true

/-- A text that is parsed to its end. -/
theorem parseMain_eq_some_iff {t : IntegerType} {negative : Bool} (h : t.Allows negative)
    (it : List UInt8) (attr : ℤ) :
    (parseMain t negative it attr).isSome ∧ ∀ i, parseMain t negative it attr = some (true, [], i) ↔
      it ≠ [] ∧ (∀ ch ∈ it, isDigit ch = true) ∧ t.Contains i ∧
        i = signed negative (digitsValue 0 it) := by
  obtain ⟨hok, hfails⟩ := parseMain_eq h it attr
  by_cases hparsed : it.takeWhile isDigit ≠ [] ∧
    digitsValue 0 (it.takeWhile isDigit) ≤ t.bound negative
  · rw [hok hparsed]
    refine ⟨rfl, fun i => ?_⟩
    simp only [Option.some.injEq, Prod.mk.injEq, true_and, List.dropWhile_eq_nil_iff]
    constructor
    · rintro ⟨hall, rfl⟩
      rw [List.takeWhile_eq_self_iff.mpr hall] at hparsed ⊢
      exact ⟨hparsed.1, hall, (IntegerType.contains_signed_iff h).mpr hparsed.2, rfl⟩
    · rintro ⟨-, hall, -, rfl⟩
      exact ⟨hall, by rw [List.takeWhile_eq_self_iff.mpr hall]⟩
  · obtain ⟨r, hr⟩ := hfails hparsed
    rw [hr]
    refine ⟨rfl, fun i => iff_of_false (by simp) ?_⟩
    rintro ⟨hne, hall, hcontains, rfl⟩
    rw [List.takeWhile_eq_self_iff.mpr hall] at hparsed
    exact hparsed ⟨hne, (IntegerType.contains_signed_iff h).mp hcontains⟩

/-- The text is accepted if the parser has come to its end. -/
theorem map_restore_eq_iff {x : Option (Bool × List UInt8 × ℤ)} (save : List UInt8) (i : ℤ) :
    ((x.map (restore save)).map fun r => (r.1 && r.2.1.isEmpty, r.2.2)) = some (true, i) ↔
      x = some (true, [], i) := by
  rcases x with _ | ⟨_ | _, rest, n⟩
  · simp
  · simp [restore]
  · simp [restore]

/-- What a text denotes to a type without signs. -/
theorem denotes_unsigned_iff {t : IntegerType} (ht : t.signed = false) (str : List UInt8) (i : ℤ) :
    (∃ negative sign digits, Denotes t str negative sign digits ∧
      i = signed negative (digitsValue 0 digits)) ↔
      str ≠ [] ∧ (∀ ch ∈ str, isDigit ch = true) ∧ i = signed false (digitsValue 0 str) := by
  constructor
  · rintro ⟨negative, sign, digits, ⟨rfl, hsign, hne, hdigits⟩, rfl⟩
    cases hsign with
    | none => exact ⟨hne, hdigits, rfl⟩
    | plus h => simp [ht] at h
    | minus h => simp [ht] at h
  · rintro ⟨hne, hdigits, rfl⟩
    exact ⟨false, [], str, ⟨rfl, .none, hne, hdigits⟩, rfl⟩

/-- What a text denotes to a type with signs. A sign is no digit. -/
theorem denotes_signed_iff {t : IntegerType} (ht : t.signed = true)
    (c : UInt8) (rest : List UInt8) (i : ℤ) :
    (∃ negative sign digits, Denotes t (c :: rest) negative sign digits ∧
        i = signed negative (digitsValue 0 digits)) ↔
      (if c = 45 ∨ c = 43 then rest else c :: rest) ≠ [] ∧
        (∀ ch ∈ if c = 45 ∨ c = 43 then rest else c :: rest, isDigit ch = true) ∧
        i
          = signed (decide (c = 45))
            (digitsValue 0 (if c = 45 ∨ c = 43 then rest else c :: rest)) := by
  constructor
  · rintro ⟨negative, sign, digits, ⟨htext, hsign, hne, hdigits⟩, rfl⟩
    cases hsign with
    | none =>
        rw [List.nil_append] at htext
        subst htext
        have hc : ¬ (c = 45 ∨ c = 43) := by
          have hdigit := hdigits c List.mem_cons_self
          rintro (rfl | rfl) <;> exact absurd hdigit (by decide)
        rw [if_neg hc, decide_eq_false (not_or.mp hc).1]
        exact ⟨hne, hdigits, rfl⟩
    | plus h =>
        obtain ⟨rfl, rfl⟩ := List.cons.inj (htext.trans (by rfl : _ = 43 :: digits))
        exact ⟨hne, hdigits, rfl⟩
    | minus h =>
        obtain ⟨rfl, rfl⟩ := List.cons.inj (htext.trans (by rfl : _ = 45 :: digits))
        exact ⟨hne, hdigits, rfl⟩
  · rintro ⟨hne, hdigits, rfl⟩
    by_cases hminus : c = 45
    · subst hminus
      exact ⟨true, ascii "-", rest, ⟨rfl, .minus ht, hne, hdigits⟩, rfl⟩
    · by_cases hplus : c = 43
      · subst hplus
        exact ⟨false, ascii "+", rest, ⟨rfl, .plus ht, hne, hdigits⟩, rfl⟩
      · rw [if_neg (not_or.mpr ⟨hminus, hplus⟩)] at hne hdigits ⊢
        rw [decide_eq_false hminus]
        exact ⟨false, [], c :: rest, ⟨rfl, .none, hne, hdigits⟩, rfl⟩

/-- An empty text is not accepted. -/
theorem intFromString_nil (t : IntegerType) (res : ℤ) :
    intFromString t [] res = some (false, res) := by
  rw [intFromString]
  cases t.signed <;> rfl

/-- A text that is not empty, by the sign of the type. -/
theorem intFromString_cons (t : IntegerType) (c : UInt8) (rest : List UInt8) (res : ℤ) :
    (intFromString t (c :: rest) res).isSome ∧ ∀ i, intFromString t
    (c :: rest) res = some (true, i) ↔
      t.Contains i ∧ ∃ negative sign digits, Denotes t (c :: rest) negative sign digits ∧
        i = signed negative (digitsValue 0 digits) := by
  rw [intFromString]
  cases ht : t.signed with
  | true =>
      have hallows : t.Allows (decide (c = 45)) := fun _ => ht
      have hparse := parseMain_eq_some_iff hallows (if c = 45 ∨ c = 43 then rest else c :: rest) res
      simp only [if_true, extractInt, map_restore_eq_iff, denotes_signed_iff ht, hparse.2]
      refine ⟨by simpa using hparse.1, fun i => by tauto⟩
  | false =>
      have hallows : t.Allows false := fun hne => absurd hne Bool.false_ne_true
      have hparse := parseMain_eq_some_iff hallows (c :: rest) res
      simp only [Bool.false_eq_true, if_false, extractUint, map_restore_eq_iff,
        denotes_unsigned_iff ht, hparse.2]
      refine ⟨by simpa using hparse.1, fun i => by tauto⟩

/-- **Exactly the texts of the type's values are accepted.** For every text and every type, whatever
was in `res`: no addition overflows; and the text is accepted, with a value in `res`, exactly if it
denotes this value, with any number of leading zeros, and the type has it. -/
theorem int_from_string_iff (t : IntegerType) (str : List UInt8) (res : ℤ) :
    (intFromString t str res).isSome ∧ ∀ i, intFromString t str res = some (true, i) ↔
      t.Contains i ∧ ∃ negative sign digits, Denotes t str negative sign digits ∧
        i = signed negative (digitsValue 0 digits) := by
  cases str with
  | nil =>
      rw [intFromString_nil]
      refine ⟨rfl, fun i => iff_of_false (by simp) ?_⟩
      rintro ⟨-, negative, sign, digits, ⟨htext, -, hne, -⟩, -⟩
      exact hne (List.append_eq_nil_iff.mp htext.symm).2
  | cons c rest => exact intFromString_cons t c rest res

/-! ### Round trip -/

theorem isDigit_of_mem_natText {n : ℕ} {ch : UInt8} (h : ch ∈ natText n) : isDigit ch = true := by
  have := natText_digits h
  exact decide_eq_true (by omega)

theorem digitsValue_natText (n : ℕ) : digitsValue 0 (natText n) = n := by
  induction n using Nat.strong_induction_on with
  | _ n ih =>
      by_cases hn : n < 10
      · rw [natText_of_lt hn, digitsValue, List.foldl_cons, List.foldl_nil, toNat_digit hn]
        omega
      · rw [natText_of_ge (not_lt.mp hn), digitsValue_append, ih (n / 10) (by omega), digitsValue,
          List.foldl_cons, List.foldl_nil, toNat_digit (Nat.mod_lt n (by decide))]
        omega

/-- The text of a value of the type denotes this value. -/
theorem denotes_intText {t : IntegerType} {i : ℤ} (h : t.Contains i) :
    ∃ negative sign digits, Denotes t (intText i) negative sign digits ∧
      i = signed negative (digitsValue 0 digits) := by
  have hne : natText i.natAbs ≠ [] := List.ne_nil_of_length_pos (length_natText_pos _)
  have hdigits : ∀ ch ∈ natText i.natAbs, isDigit ch = true :=
    fun ch hch => isDigit_of_mem_natText hch
  rcases Int.lt_or_le i 0 with hneg | hnonneg
  · have ht : t.signed = true := by
      by_contra hnot
      rw [IntegerType.Contains, Bool.eq_false_iff.mpr hnot] at h
      exact absurd h.1 (not_le.mpr hneg)
    refine ⟨true, ascii "-", natText i.natAbs, ⟨?_, .minus ht, hne, hdigits⟩, ?_⟩
    · rw [intText, if_pos hneg]
      rfl
    · rw [digitsValue_natText, signed, if_pos rfl]
      omega
  · refine ⟨false, [], natText i.natAbs, ⟨?_, .none, hne, hdigits⟩, ?_⟩
    · rw [intText, if_neg (not_lt.mpr hnonneg)]
      rfl
    · rw [digitsValue_natText, signed, if_neg Bool.false_ne_true]
      omega

/-- **Text and back.** What `int_to_string` returns for a value of any type is accepted by
`int_from_string` for this type, and gives the value. -/
theorem int_from_string_int_to_string {t : IntegerType}
    {i : ℤ} (h : t.Contains i) {local' text : List UInt8}
    (htext : intToStringlike false i local' = some text) (res : ℤ) :
    intFromString t text res = some (true, i) := by
  obtain ⟨-, rfl⟩ := intToStringlike_eq_some_iff.mp htext
  obtain ⟨c, rest, hcons⟩ := List.exists_cons_of_length_pos (length_intText_pos i)
  have hdenotes := denotes_intText h
  simp only [Bool.false_eq_true, if_false, List.append_nil]
  rw [hcons] at hdenotes ⊢
  exact ((intFromString_cons t c rest res).2 i).mpr ⟨h, hdenotes⟩

/-- A negative number of eight bytes. -/
theorem minus_forty_two_and_back :
    intFromString ⟨8, true, by decide, by decide⟩ (ascii "-42") 7 = some (true, -42) :=
  @int_from_string_int_to_string ⟨8, true, by decide, by decide⟩ (-42) ⟨by decide, by decide⟩ []
    (ascii "-42") (by decide) 7

end TradingDesk.Utils
