import Mathlib.Order.Defs.LinearOrder

/-!
# TradingDesk.Utils.Timespec

**Instants** (`timespec.hpp`): seconds and nanoseconds since the epoch, compared
seconds first. The all-zero value doubles as "no instant". A normalised instant is
its count of nanoseconds, `ofTotal`: comparison and addition of instants are those of
the counts.
-/

namespace TradingDesk.Utils

/-- `utils::timespec`. Both counts are 64-bit; nothing here comes near their limits. -/
@[ext] structure Timespec where
  sec : Int
  nsec : Int
  deriving Repr, DecidableEq

namespace Timespec

/-- `utils::timespec{}`. -/
def zero : Timespec := ⟨0, 0⟩

/-- `operator<`. -/
instance : LT Timespec := ⟨fun a b => a.sec < b.sec ∨ (a.sec = b.sec ∧ a.nsec < b.nsec)⟩

/-- `operator<=`: `!(left > right)`. -/
instance : LE Timespec := ⟨fun a b => ¬ b < a⟩

theorem lt_def (a b : Timespec) : a < b ↔ a.sec < b.sec ∨ (a.sec = b.sec ∧ a.nsec < b.nsec) :=
  Iff.rfl

theorem le_def (a b : Timespec) : a ≤ b ↔ ¬ b < a := Iff.rfl

instance : DecidableLT Timespec := fun a b =>
  inferInstanceAs (Decidable (a.sec < b.sec ∨ (a.sec = b.sec ∧ a.nsec < b.nsec)))

instance : DecidableLE Timespec := fun a b => inferInstanceAs (Decidable (¬ b < a))

/-- The comparison operators are one total order. -/
instance : LinearOrder Timespec where
  le_refl a := by
    rw [le_def, lt_def]
    omega
  le_trans a b c := by
    simp only [le_def, lt_def]
    omega
  le_antisymm a b := by
    rw [Timespec.ext_iff]
    simp only [le_def, lt_def]
    omega
  le_total a b := by
    simp only [le_def, lt_def]
    omega
  lt_iff_le_not_ge a b := by
    simp only [le_def, lt_def]
    omega
  toDecidableLE := inferInstance
  toDecidableLT := inferInstance
  toDecidableEq := inferInstance

/-- Instants of whole seconds compare as the seconds do. -/
theorem mk_le_mk {s t : Int} : (⟨s, 0⟩ : Timespec) ≤ ⟨t, 0⟩ ↔ s ≤ t := by
  simp only [le_def, lt_def]
  omega

theorem mk_lt_mk {s t : Int} : (⟨s, 0⟩ : Timespec) < ⟨t, 0⟩ ↔ s < t := by
  simp only [lt_def]
  omega

/-- `operator>`, which is written out on its own. -/
def Greater (left right : Timespec) : Prop :=
  left.sec > right.sec ∨ (left.sec = right.sec ∧ left.nsec > right.nsec)

instance (left right : Timespec) : Decidable (Greater left right) :=
  inferInstanceAs
    (Decidable (left.sec > right.sec ∨ (left.sec = right.sec ∧ left.nsec > right.nsec)))

/-- It is `operator<` the other way round. -/
theorem greater_iff {a b : Timespec} : a.Greater b ↔ b < a := by
  rw [Greater, lt_def, eq_comm]

/-! ### Addition -/

/-- `operator+=` of a count of nanoseconds: the carry is truncated towards zero. -/
def add (t : Timespec) (duration : Int) : Timespec :=
  let newNsec := t.nsec + duration
  let durSec := newNsec.tdiv 1000000000
  ⟨t.sec + durSec, newNsec - durSec * 1000000000⟩

/-! ### Subtraction and distance

Signed overflow is undefined in the source, so where it does not occur, sums and
differences are those of the integers. -/

/-- `operator-=` of a count of nanoseconds: the seconds go first, then what is left of the
duration, with a second borrowed if there are too few nanoseconds. Below zero it saturates. -/
def sub (t : Timespec) (duration : Int) : Timespec :=
  let durSec := duration.tdiv 1000000000
  if t.sec < durSec then zero
  else
    let sec := t.sec - durSec
    let durNsec := duration - durSec * 1000000000
    if t.nsec < durNsec then
      if sec = 0 then zero else ⟨sec - 1, t.nsec + 1000000000 - durNsec⟩
    else ⟨sec, t.nsec - durNsec⟩

/-- The asserts that `operator-=` comes to, in order. -/
def subAsserts (t : Timespec) (duration : Int) : List Bool :=
  let durSec := duration.tdiv 1000000000
  if t.sec < durSec then []
  else
    let sec := t.sec - durSec
    let durNsec := duration - durSec * 1000000000
    decide (durNsec < 1000000000) ::
      if t.nsec < durNsec then
        if sec = 0 then []
        else [decide (1 ≤ sec), decide (durNsec ≤ t.nsec + 1000000000),
          decide (t.nsec + 1000000000 - durNsec < 1000000000)]
      else [decide (durNsec ≤ t.nsec), decide (t.nsec - durNsec < 1000000000)]

/-- `delta`. -/
def delta (t other : Timespec) : Int :=
  if t.Greater other then (t.sec - other.sec) * 1000000000 + (t.nsec - other.nsec)
  else (other.sec - t.sec) * 1000000000 + (other.nsec - t.nsec)

/-! ### Counts of nanoseconds -/

/-- The nanoseconds are less than a second. -/
def Normalized (t : Timespec) : Prop := 0 ≤ t.nsec ∧ t.nsec < 1000000000

instance (t : Timespec) : Decidable t.Normalized :=
  inferInstanceAs (Decidable (0 ≤ t.nsec ∧ t.nsec < 1000000000))

/-- The normalised instant at a count of nanoseconds since the epoch. -/
def ofTotal (n : Int) : Timespec := ⟨n / 1000000000, n % 1000000000⟩

/-- The count of nanoseconds since the epoch. -/
def total (t : Timespec) : Int := t.sec * 1000000000 + t.nsec

@[simp] theorem total_ofTotal (n : Int) : (ofTotal n).total = n := by
  simp only [total, ofTotal]
  omega

/-- Being normalised is being determined by the count. -/
theorem Normalized.eq_ofTotal {t : Timespec} (h : t.Normalized) : t = ofTotal t.total := by
  obtain ⟨h0, hlt⟩ := h
  rw [Timespec.ext_iff]
  simp only [total, ofTotal]
  omega

theorem total_nonneg {t : Timespec} (h : t.Normalized) (hsec : 0 ≤ t.sec) : 0 ≤ t.total := by
  have h0 := h.1
  simp only [total]
  omega

theorem ofTotal_sec_nonneg {n : Int} : 0 ≤ (ofTotal n).sec ↔ 0 ≤ n := by
  simp only [ofTotal]
  omega

theorem normalized_ofTotal (n : Int) : (ofTotal n).Normalized := by
  simp only [Normalized, ofTotal]
  omega

theorem ofTotal_lt_ofTotal {m n : Int} : ofTotal m < ofTotal n ↔ m < n := by
  simp only [lt_def, ofTotal]
  omega

theorem ofTotal_inj {m n : Int} : ofTotal m = ofTotal n ↔ m = n := by
  refine ⟨fun h => ?_, fun h => by rw [h]⟩
  rw [← total_ofTotal m, h, total_ofTotal]

theorem ofTotal_le_ofTotal {m n : Int} : ofTotal m ≤ ofTotal n ↔ m ≤ n := by
  rw [le_def, ofTotal_lt_ofTotal, Int.not_lt]

/-- Adding a duration that is not negative adds its nanoseconds. -/
theorem add_ofTotal (n : Int) {duration : Int} (h : 0 ≤ duration) :
    (ofTotal n).add duration = ofTotal (n + duration) := by
  have hcarry : (n % 1000000000 + duration).tdiv 1000000000
      = (n % 1000000000 + duration) / 1000000000 :=
    Int.tdiv_eq_ediv_of_nonneg (by omega)
  simp only [add, ofTotal, hcarry, mk.injEq]
  omega

end Timespec

end TradingDesk.Utils
