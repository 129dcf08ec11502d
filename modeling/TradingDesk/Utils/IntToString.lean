import TradingDesk.Core.Cells
import TradingDesk.Core.Decimal

/-!
# TradingDesk.Utils.IntToString

**Integers as text** (`stringify.hpp`), written by Karma into a local buffer of 24 bytes. A
`static_assert` is to keep out the types whose values do not fit; it divides the size of the
type by three, and the size is in bytes.
-/

namespace TradingDesk.Utils

open TradingDesk.Core

/-- `local_buffer_size`. -/
def localBufferSize : ℕ := 24

/-- An integer type for which `int_to_stringlike` compiles. -/
structure IntegerType where
  /-- `sizeof(Integer)`. -/
  size : ℕ
  /-- `std::is_signed_v<Integer>`. -/
  signed : Bool
  size_pos : 0 < size
  /-- The `static_assert`. -/
  accepted : localBufferSize > size / 3 + 1

/-- The values of the type. -/
def IntegerType.Contains (t : IntegerType) (i : ℤ) : Prop :=
  match t.signed with
  | true => -(2 ^ (8 * t.size - 1)) ≤ i ∧ i < 2 ^ (8 * t.size - 1)
  | false => 0 ≤ i ∧ i < 2 ^ (8 * t.size)

/-- Bytes written from a position on. Behind the end of the buffer there is nothing to write
to. -/
def writeAt (buffer : List UInt8) (p : ℕ) (text : List UInt8) : Option (List UInt8) :=
  if p + text.length ≤ buffer.length then
    some (buffer.take p ++ text ++ buffer.drop (p + text.length))
  else none

/-- `int_to_stringlike`. Karma writes the decimal text; a failed assert, or a write behind the
buffer, is `none`. -/
def intToStringlike (includeNullChar : Bool) (i : ℤ) (text : List UInt8) : Option (List UInt8) := do
  let text := resize 0 text localBufferSize
  let text ← writeAt text 0 (intText i)
  let p := (intText i).length
  guard (0 < p)
  guard (p < localBufferSize - 1)
  -- "ensure we have a 0"
  let text ← writeAt text p [0]
  return resize 0 text (if includeNullChar then p + 1 else p)

/-! ### The length of a decimal text -/

theorem length_natText_pos (n : ℕ) : 0 < (natText n).length := by
  by_cases hn : n < 10
  · rw [natText_of_lt hn]
    exact Nat.zero_lt_one
  · rw [natText_of_ge (not_lt.mp hn), List.length_append]
    exact Nat.lt_add_left _ Nat.zero_lt_one

theorem length_intText_pos (z : ℤ) : 0 < (intText z).length := by
  rw [intText]
  split
  · exact Nat.succ_pos _
  · exact length_natText_pos _

theorem length_natText_le_iff {w n : ℕ} (hw : 0 < w) : (natText n).length ≤ w ↔ n < 10 ^ w := by
  constructor
  · intro hlen
    by_contra hge
    exact absurd (lt_length_natText (not_lt.mp hge)) (not_lt.mpr hlen)
  · intro hlt
    exact (rightAlign_natText hlt hw).2

/-- The sign takes one place. -/
theorem length_intText_le_iff {w : ℕ} {z : ℤ} (hw : 0 < w) :
    (intText z).length ≤ w + 1 ↔ -10 ^ w < z ∧ z < 10 ^ (w + 1) := by
  rcases Int.lt_or_le z 0 with hneg | hnonneg
  · obtain ⟨n, rfl⟩ : ∃ n : ℕ, z = -n := ⟨z.natAbs, by omega⟩
    have hupper : -(n : ℤ) < 10 ^ (w + 1) := hneg.trans (by positivity)
    rw [intText, if_pos hneg, Int.natAbs_neg, Int.natAbs_natCast, List.length_cons,
      Nat.add_le_add_iff_right, length_natText_le_iff hw, neg_lt_neg_iff]
    exact ⟨fun hlt => ⟨by exact_mod_cast hlt, hupper⟩, fun h => by exact_mod_cast h.1⟩
  · obtain ⟨n, rfl⟩ := Int.eq_ofNat_of_zero_le hnonneg
    have hlower : -10 ^ w < (n : ℤ) := lt_of_lt_of_le (neg_neg_of_pos (by positivity)) hnonneg
    rw [intText, if_neg (not_lt.mpr hnonneg), Int.natAbs_natCast,
      length_natText_le_iff (Nat.succ_pos w)]
    exact ⟨fun hlt => ⟨hlower, by exact_mod_cast hlt⟩, fun h => by exact_mod_cast h.2⟩

/-! ### The buffer -/

/-- A text that is written at the start of a buffer is what the buffer is cut down to. -/
theorem resize_append (text rest : List UInt8) : resize 0 (text ++ rest) text.length = text := by
  rw [resize, List.take_left, List.length_append, Nat.sub_eq_zero_of_le (Nat.le_add_right _ _)]
  exact List.append_nil text

/-- The text that is left of the buffer, with or without its zero. -/
theorem resize_zero (text rest : List UInt8) (includeNullChar : Bool) :
    resize 0 (text ++ ([0] ++ rest)) (if includeNullChar then text.length + 1 else text.length)
      = text ++ if includeNullChar then [0] else [] := by
  cases includeNullChar with
  | false => exact (resize_append _ _).trans (List.append_nil _).symm
  | true =>
      rw [← List.append_assoc]
      exact (congrArg (resize 0 _) (List.length_append).symm).trans (resize_append _ _)

/-- The text fits with its sign and the zero behind it, and the asserts hold. -/
structure Fits (i : ℤ) : Prop where
  room : (intText i).length + 1 ≤ localBufferSize
  start_lt : 0 < (intText i).length
  lt_end : (intText i).length < localBufferSize - 1

/-- The last assert asks for one byte more than the zero needs. -/
theorem fits_iff (i : ℤ) : Fits i ↔ -10 ^ 21 < i ∧ i < 10 ^ 22 := by
  rw [← length_intText_le_iff (by decide : 0 < 21)]
  exact ⟨fun h => Nat.le_of_lt_succ h.lt_end,
    fun h => ⟨by show _ ≤ 24; omega, length_intText_pos i, by show _ < 23; omega⟩⟩

/-- Writing at the end of what was written before. -/
theorem writeAt_append {buffer text : List UInt8} {p : ℕ} (hp : p = buffer.length)
    {rest : List UInt8} (hroom : text.length ≤ rest.length) :
    writeAt (buffer ++ rest) p text = some (buffer ++ (text ++ rest.drop text.length)) := by
  subst hp
  rw [writeAt, List.length_append, if_pos (Nat.add_le_add_left hroom _), List.take_left,
    List.drop_length_add_append, List.append_assoc]

/-- Where the text fits, a call returns it; elsewhere it is undefined. -/
theorem intToStringlike_eq_some_iff {includeNullChar : Bool} {i : ℤ} {text res : List UInt8} :
    intToStringlike includeNullChar i text = some res ↔
      Fits i ∧ res = intText i ++ if includeNullChar then [0] else [] := by
  have hpos := length_intText_pos i
  have hlen := length_resize 0 text localBufferSize
  by_cases hroom : (intText i).length ≤ localBufferSize
  swap
  · -- Karma itself writes behind the buffer
    have hwrite : writeAt (resize 0 text localBufferSize) 0 (intText i) = none := by
      rw [writeAt, if_neg (by omega)]
    simp only [intToStringlike, hwrite, Option.bind_eq_bind, Option.bind_none]
    refine iff_of_false (by simp) fun h => ?_
    have := h.1.room
    omega
  have hwrite := @writeAt_append [] (intText i) 0 rfl (resize 0 text localBufferSize) (by omega)
  simp only [List.nil_append] at hwrite
  simp only [intToStringlike, hwrite, Option.bind_eq_bind, Option.bind_some, guard, if_pos hpos,
    Option.pure_def]
  by_cases hend : (intText i).length < localBufferSize - 1
  · have hzero := @writeAt_append (intText i) [0] _ rfl
      ((resize 0 text localBufferSize).drop (intText i).length)
      (by rw [List.length_drop, hlen]; show 1 ≤ _; omega)
    have hfits : Fits i := ⟨by omega, hpos, hend⟩
    rw [if_pos hend, Option.bind_some, hzero, Option.bind_some, resize_zero, Option.some.injEq]
    exact ⟨fun h => ⟨hfits, h.symm⟩, fun h => h.2.symm⟩
  · rw [if_neg hend]
    exact iff_of_false (by simp) fun h => hend h.1.lt_end

/-! ### The check at compile time -/

/-- The values of a type that may be too long. -/
theorem IntegerType.fits_of_contains {t : IntegerType}
    (ht : t.size ≤ 8 ∨ (t.size = 9 ∧ t.signed = false)) {i : ℤ} (hi : t.Contains i) : Fits i := by
  rw [fits_iff]
  rw [Contains] at hi
  cases hsigned : t.signed with
  | true =>
      rw [hsigned] at hi
      have hsize : t.size ≤ 8 := by simpa [hsigned] using ht
      have hpow : (2 : ℤ) ^ (8 * t.size - 1) ≤ 2 ^ 63 := pow_le_pow_right₀ (by decide) (by omega)
      omega
  | false =>
      rw [hsigned] at hi
      have hpow : (2 : ℤ) ^ (8 * t.size) ≤ 2 ^ 72 := pow_le_pow_right₀ (by decide) (by omega)
      omega

/-- A type that is larger has a value that does not fit: the smallest one if it has a sign, else the
largest one. -/
theorem IntegerType.exists_not_fits {t : IntegerType}
    (ht : ¬ (t.size ≤ 8 ∨ (t.size = 9 ∧ t.signed = false))) : ∃ i, t.Contains i ∧ ¬ Fits i := by
  obtain ⟨hsize, hnine⟩ := not_or.mp ht
  cases hsigned : t.signed with
  | true =>
      have hpow : (2 : ℤ) ^ 71 ≤ 2 ^ (8 * t.size - 1) := pow_le_pow_right₀ (by decide) (by omega)
      refine ⟨-(2 ^ (8 * t.size - 1)), ?_, ?_⟩
      · rw [Contains, hsigned]
        exact ⟨le_rfl, by omega⟩
      · rw [fits_iff]
        omega
  | false =>
      have hne : t.size ≠ 9 := fun h => hnine ⟨h, hsigned⟩
      have hpow : (2 : ℤ) ^ 80 ≤ 2 ^ (8 * t.size) := pow_le_pow_right₀ (by decide) (by omega)
      refine ⟨2 ^ (8 * t.size) - 1, ?_, ?_⟩
      · rw [Contains, hsigned]
        exact ⟨by omega, by omega⟩
      · rw [fits_iff]
        omega

/-- **What the check lets through.** A value of a type that compiles fits into the buffer, and is
written, exactly if it has at most 21 digits behind a sign, or 22 without one; and that is so for
all values of the type exactly if it has at most eight bytes, or nine and no sign. -/
theorem int_to_stringlike_fits_iff (t : IntegerType) :
    (∀ i, t.Contains i → ((Fits i ∧ ∀ includeNullChar text,
        intToStringlike includeNullChar i text
          = some (intText i ++ if includeNullChar then [0] else []))
      ↔ -10 ^ 21 < i ∧ i < 10 ^ 22)) ∧
    ((∀ i, t.Contains i → Fits i) ↔ t.size ≤ 8 ∨ (t.size = 9 ∧ t.signed = false)) := by
  refine ⟨fun i _ => ?_, fun hall => ?_, fun ht i hi => IntegerType.fits_of_contains ht hi⟩
  · rw [← fits_iff]
    exact ⟨And.left, fun h => ⟨h, fun _ _ => intToStringlike_eq_some_iff.mpr ⟨h, rfl⟩⟩⟩
  · by_contra ht
    obtain ⟨i, hi, hnot⟩ := IntegerType.exists_not_fits ht
    exact hnot (hall i hi)

/-- An unsigned type of 16 bytes compiles, and its largest value has 39 digits. -/
theorem sixteen_bytes_overflow :
    (⟨16, false, by decide, by decide⟩ : IntegerType).Contains (2 ^ 128 - 1) ∧
      ¬ Fits (2 ^ 128 - 1) ∧ intToStringlike false (2 ^ 128 - 1) [] = none := by
  have hnot : ¬ Fits (2 ^ 128 - 1) := by
    rw [fits_iff]
    omega
  refine ⟨⟨by decide, by decide⟩, hnot, ?_⟩
  cases hcall : intToStringlike false (2 ^ 128 - 1) [] with
  | none => rfl
  | some res => exact absurd (intToStringlike_eq_some_iff.mp hcall).1 hnot

end TradingDesk.Utils
