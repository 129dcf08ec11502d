import Mathlib.Data.List.TakeWhile
import Mathlib.Order.Lattice

/-!
# TradingDesk.Core.Stable

**Sorting by a key, entries with one key in their order.** `IsStableSort` is the
specification: the keys do not decrease, and the entries of each key are those of the
list, in its order. Inserting one entry after the other behind every one whose key is
not larger meets it.
-/

namespace TradingDesk.Core

variable {α τ : Type*} [LinearOrder τ]

/-- `ys` has the entries of `xs` in the order of their keys, and those of one key in the
order of `xs`. -/
structure IsStableSort (key : α → τ) (xs ys : List α) : Prop where
  sorted : ys.Pairwise fun x y => key x ≤ key y
  stable : ∀ k, (ys.filter fun y => decide (key y = k)) = xs.filter fun x => decide (key x = k)

section

variable {key : α → τ} {xs ys : List α}

/-- Nothing is lost and nothing is duplicated. -/
theorem IsStableSort.perm (h : IsStableSort key xs ys) : ys.Perm xs := by
  classical
  refine List.perm_iff_count.mpr fun a => ?_
  have hkey : ∀ l : List α, (l.filter fun y => decide (key y = key a)).count a = l.count a :=
    fun l => List.count_filter (decide_eq_true rfl)
  rw [← hkey ys, h.stable, hkey xs]

end

/-! ### Insertion behind equal keys -/

/-- Insert an entry behind those whose keys are not larger. -/
def insertBehind (key : α → τ) (ys : List α) (x : α) : List α :=
  ys.takeWhile (fun y => decide (key y ≤ key x)) ++ x :: ys.dropWhile fun y =>
    decide (key y ≤ key x)

section

variable {key : α → τ} {xs ys : List α} {x : α}

theorem insertBehind_of_le (h : ∀ y ∈ ys, key y ≤ key x) : insertBehind key ys x = ys ++ [x] := by
  have htake : ys.takeWhile (fun y => decide (key y ≤ key x)) = ys :=
    List.takeWhile_eq_self_iff.mpr fun y hy => decide_eq_true (h y hy)
  have hdrop : ys.dropWhile (fun y => decide (key y ≤ key x)) = [] :=
    List.dropWhile_eq_nil_iff.mpr fun y hy => decide_eq_true (h y hy)
  rw [insertBehind, htake, hdrop]

/-- In a sorted list, what the entry is put in front of has larger keys. -/
theorem lt_of_mem_dropWhile (hsorted : ys.Pairwise fun x y => key x ≤ key y) {y : α}
    (hy : y ∈ ys.dropWhile fun y => decide (key y ≤ key x)) : key x < key y := by
  induction ys with
  | nil => cases hy
  | cons z ys ih =>
      obtain ⟨hz, htail⟩ := List.pairwise_cons.mp hsorted
      rw [List.dropWhile_cons] at hy
      split at hy
      · exact ih htail hy
      · rename_i hlarger
        have hlt : key x < key z := not_le.mp fun hle => hlarger (decide_eq_true hle)
        rcases List.mem_cons.mp hy with rfl | hy
        · exact hlt
        · exact lt_of_lt_of_le hlt (hz y hy)

theorem le_of_mem_takeWhile {y : α} (hy : y ∈ ys.takeWhile fun y => decide (key y ≤ key x)) :
    key y ≤ key x := by
  have hle := List.mem_takeWhile_imp hy
  exact of_decide_eq_true hle

theorem sorted_insertBehind (hsorted : ys.Pairwise fun x y => key x ≤ key y) (x : α) :
    (insertBehind key ys x).Pairwise fun x y => key x ≤ key y := by
  rw [insertBehind, List.pairwise_append, List.pairwise_cons]
  refine ⟨hsorted.sublist (List.takeWhile_sublist _),
    ⟨?_, hsorted.sublist (List.dropWhile_sublist _)⟩,
    ?_⟩
  · intro y hy
    exact le_of_lt (lt_of_mem_dropWhile hsorted hy)
  · intro y hy z hz
    have hyx := le_of_mem_takeWhile hy
    rcases List.mem_cons.mp hz with rfl | hz
    · exact hyx
    · exact le_trans hyx (le_of_lt (lt_of_mem_dropWhile hsorted hz))

/-- Among the entries of any one key, the new one is the last. -/
theorem filter_insertBehind (hsorted : ys.Pairwise fun x y => key x ≤ key y) (x : α) (k : τ) :
    (insertBehind key ys x).filter (fun y => decide (key y = k))
      = (ys ++ [x]).filter fun y => decide (key y = k) := by
  have hsplit : ∀ p : α → Bool, ys.filter p
      = (ys.takeWhile fun y => decide (key y ≤ key x)).filter p ++
        (ys.dropWhile fun y => decide (key y ≤ key x)).filter p := by
    intro p
    rw [← List.filter_append, List.takeWhile_append_dropWhile]
  rw [insertBehind, List.filter_append, List.filter_append, hsplit, List.append_assoc]
  congr 1
  by_cases hk : key x = k
  · -- none of the entries behind it has its key
    have hnone : (ys.dropWhile fun y => decide (key y ≤ key x)).filter (fun y => decide (key y = k))
        = [] := by
      refine List.filter_eq_nil_iff.mpr fun y hy => ?_
      rw [decide_eq_true_eq, ← hk]
      exact (lt_of_mem_dropWhile hsorted hy).ne'
    rw [List.filter_cons, hnone, List.nil_append, List.filter_cons, List.filter_nil]
  · have hother : ∀ l : List α, (x :: l).filter (fun y => decide (key y = k))
        = l.filter fun y => decide (key y = k) := by
      intro l
      rw [List.filter_cons, decide_eq_false hk]
      rfl
    rw [hother, hother, List.filter_nil, List.append_nil]

/-- **Inserting one entry after the other sorts**, and is stable. -/
theorem isStableSort_foldl_insertBehind (hsorted : ys.Pairwise fun x y => key x ≤ key y)
    (xs : List α) : IsStableSort key (ys ++ xs) (xs.foldl (insertBehind key) ys) := by
  induction xs generalizing ys with
  | nil => exact ⟨hsorted, fun k => by rw [List.append_nil]; rfl⟩
  | cons x xs ih =>
      obtain ⟨hsorted', hstable⟩ := ih (sorted_insertBehind hsorted x)
      refine ⟨hsorted', fun k => ?_⟩
      rw [List.foldl_cons, hstable, List.filter_append, filter_insertBehind hsorted,
        ← List.filter_append, List.append_assoc, List.singleton_append]

/-- A list that is sorted stays as it is. -/
theorem foldl_insertBehind_of_sorted (hsorted : (ys ++ xs).Pairwise fun x y => key x ≤ key y) :
    xs.foldl (insertBehind key) ys = ys ++ xs := by
  induction xs generalizing ys with
  | nil => rw [List.append_nil]; rfl
  | cons x xs ih =>
      have hlast : ∀ y ∈ ys, key y ≤ key x :=
        fun y hy => (List.pairwise_append.mp hsorted).2.2 y hy x List.mem_cons_self
      rw [List.foldl_cons, insertBehind_of_le hlast, ih (by simpa using hsorted), List.append_assoc,
        List.singleton_append]

end

end TradingDesk.Core
