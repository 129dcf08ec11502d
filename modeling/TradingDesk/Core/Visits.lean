import Mathlib.Data.List.TakeWhile
import Mathlib.Data.Nat.Nth

/-!
# TradingDesk.Core.Visits

**A walk that skips.** A walk over the integers moves to the next position with some
property, visits it, and goes on behind it. Whatever the property, the visited positions
are the first ones with it from the start on, in order, each once: `visits_eq_nthFrom`.
-/

namespace TradingDesk.Core

/-- `d` is the first position from `m` on with the property. -/
structure IsNext (p : Int → Prop) (m d : Int) : Prop where
  le : m ≤ d
  holds : p d
  skipped : ∀ j, m ≤ j → j < d → ¬ p j

/-- The position with `i` others before it among those from `start` on with the
property. -/
noncomputable def nthFrom (p : Int → Prop) (start : Int) (i : Nat) : Int :=
  start + Nat.nth (fun k : Nat => p (start + k)) i

/-- The first `n` positions visited from `m` on. -/
def visits (next : Int → Int) : Nat → Int → List Int
  | 0, _ => []
  | n + 1, m => next m :: visits next n (next m + 1)

variable {p : Int → Prop} {next : Int → Int}

/-- **Step lemma.** With `i` positions behind it, the walk visits the one with `i` others
before it, and then has `i + 1` behind it. -/
theorem IsNext.nthFrom_eq [DecidablePred p] {start d : Int} {k i : Nat}
    (h : IsNext p (start + k) d) (hcount : Nat.count (fun k : Nat => p (start + k)) k = i) :
    nthFrom p start i = d ∧ ∃ k' : Nat, start + k' = d + 1 ∧
      Nat.count (fun k : Nat => p (start + k)) k' = i + 1 := by
  obtain ⟨gap, hgap⟩ := Int.le.dest h.le
  have hd : start + ((k + gap : Nat) : Int) = d := by
    push_cast
    omega
  have hcount' : Nat.count (fun k : Nat => p (start + k)) (k + gap) = i := by
    rw [Nat.count_add, hcount, Nat.add_eq_left, Nat.count_iff_forall_not]
    intro j hj
    exact h.skipped _ (by push_cast; omega) (by push_cast; omega)
  have hp : p (start + ((k + gap : Nat) : Int)) := hd ▸ h.holds
  refine ⟨?_, k + gap + 1, ?_, ?_⟩
  · rw [nthFrom, ← hcount', Nat.nth_count (p := fun k : Nat => p (start + k)) hp, hd]
  · push_cast at hd ⊢
    omega
  · rw [Nat.count_succ, hcount', if_pos hp]

/-- **Run lemma.** -/
theorem visits_eq_range' [DecidablePred p] (hnext : ∀ m, IsNext p m (next m)) (start : Int)
    (n : Nat) {k i : Nat} (hcount : Nat.count (fun k : Nat => p (start + k)) k = i) :
    visits next n (start + k) = (List.range' i n).map (nthFrom p start) := by
  induction n generalizing k i with
  | zero => rfl
  | succ n ih =>
      obtain ⟨hnth, k', hk', hcount'⟩ := (hnext (start + k)).nthFrom_eq hcount
      rw [visits, List.range'_succ, List.map_cons, hnth, ← hk', ih hcount']

/-- The walk visits the first positions with the property. -/
theorem visits_eq_nthFrom (hnext : ∀ m, IsNext p m (next m)) (n : Nat) (start : Int) :
    visits next n start = (List.range n).map (nthFrom p start) := by
  classical
  have h := visits_eq_range' hnext start n (k := 0) (Nat.count_zero _)
  rwa [Int.natCast_zero, Int.add_zero, ← List.range_eq_range'] at h

theorem of_mem_visits (hnext : ∀ m, IsNext p m (next m)) {n : Nat} {m d : Int}
    (hd : d ∈ visits next n m) : m ≤ d ∧ p d := by
  induction n generalizing m with
  | zero => cases hd
  | succ n ih =>
      rw [visits, List.mem_cons] at hd
      rcases hd with rfl | hd
      · exact ⟨(hnext m).le, (hnext m).holds⟩
      · have hle := (hnext m).le
        obtain ⟨hlt, hp⟩ := ih hd
        exact ⟨by omega, hp⟩

theorem pairwise_visits (hnext : ∀ m, IsNext p m (next m)) (n : Nat) (m : Int) :
    (visits next n m).Pairwise (· < ·) := by
  induction n generalizing m with
  | zero => exact List.Pairwise.nil
  | succ n ih =>
      refine List.pairwise_cons.mpr ⟨?_, ih _⟩
      intro d hd
      have hle := (of_mem_visits hnext hd).1
      omega

theorem pairwise_map_nthFrom (hnext : ∀ m, IsNext p m (next m)) (n : Nat) (start : Int) :
    ((List.range n).map (nthFrom p start)).Pairwise (· < ·) :=
  visits_eq_nthFrom hnext n start ▸ pairwise_visits hnext n start

/-- A walk that is cut off behind `last` still gets to its position `k` exactly if that is not
behind. -/
theorem lt_length_takeWhile_iff {ns : List Int} (hsorted : ns.Pairwise (· < ·)) {last : Int}
    {k : Nat} (hk : k < ns.length) :
    k < (ns.takeWhile (· ≤ last)).length ↔ ns[k] ≤ last := by
  induction ns generalizing k with
  | nil => exact absurd hk (Nat.not_lt_zero k)
  | cons n ns ih =>
      obtain ⟨hfirst, hrest⟩ := List.pairwise_cons.mp hsorted
      by_cases hn : n ≤ last
      · rw [List.takeWhile_cons_of_pos (by simpa using hn)]
        cases k with
        | zero => simpa using hn
        | succ k => simpa using ih hrest (Nat.lt_of_succ_lt_succ hk)
      · rw [List.takeWhile_cons_of_neg (by simpa using hn)]
        have hbehind : last < (n :: ns)[k] := by
          cases k with
          | zero => simpa using hn
          | succ k =>
              have hlt := hfirst _ (List.getElem_mem (Nat.lt_of_succ_lt_succ hk))
              rw [List.getElem_cons_succ]
              omega
        exact iff_of_false (Nat.not_lt_zero k) (by omega)

end TradingDesk.Core
