import Mathlib.Algebra.BigOperators.Group.List.Basic
import Mathlib.Algebra.Order.BigOperators.Group.List
import Mathlib.Algebra.Order.Group.Nat
import Mathlib.Algebra.Ring.Nat

/-!
# TradingDesk.Core.Grouping

**Runs of equal keys.** `runs key xs` cuts a list where the key changes. Nothing is
lost and nothing moves: the runs, one behind the other, are the list. On a list that is
sorted by the key there is one run for each key, in increasing order, and it has all
the entries of that key, so a loop that only looks at its neighbour groups the whole
list, and the totals of the groups are the total of the list.
-/

namespace TradingDesk.Core

variable {α κ : Type*}

/-! ### Runs -/

section

variable [DecidableEq κ] (key : α → κ)

/-- Put an entry in front of a list that is already cut. -/
def consRun (x : α) : List (κ × List α) → List (κ × List α)
  | [] => [(key x, [x])]
  | (k, g) :: rest => if key x = k then (k, x :: g) :: rest else (key x, [x]) :: (k, g) :: rest

/-- The runs of a list, each with its key. -/
def runs : List α → List (κ × List α)
  | [] => []
  | x :: xs => consRun key x (runs xs)

variable {key} {x : α} {xs : List α} {cut : List (κ × List α)}

theorem flatMap_consRun (x : α) (cut : List (κ × List α)) :
    (consRun key x cut).flatMap Prod.snd = x :: cut.flatMap Prod.snd := by
  cases cut with
  | nil => rfl
  | cons run rest =>
      obtain ⟨k, g⟩ := run
      rw [consRun]
      split <;> rfl

/-- **Nothing is lost and nothing moves.** -/
theorem flatMap_runs (key : α → κ) (xs : List α) : (runs key xs).flatMap Prod.snd = xs := by
  induction xs with
  | nil => rfl
  | cons x xs ih => rw [runs, flatMap_consRun, ih]

theorem key_of_mem_consRun (hcut : ∀ run ∈ cut, ∀ y ∈ run.2, key y = run.1) :
    ∀ run ∈ consRun key x cut, ∀ y ∈ run.2, key y = run.1 := by
  cases cut with
  | nil =>
      intro run hrun y hy
      obtain rfl := List.mem_singleton.mp hrun
      exact congrArg key (List.mem_singleton.mp hy)
  | cons first rest =>
      obtain ⟨k, g⟩ := first
      obtain ⟨hfirst, hrest⟩ := List.forall_mem_cons.mp hcut
      rw [consRun]
      split
      · rename_i hk
        refine List.forall_mem_cons.mpr ⟨?_, hrest⟩
        exact List.forall_mem_cons.mpr ⟨hk, hfirst⟩
      · refine List.forall_mem_cons.mpr ⟨?_, hcut⟩
        exact List.forall_mem_cons.mpr ⟨rfl, nofun⟩

/-- The entries of a run have its key. -/
theorem key_of_mem_runs : ∀ run ∈ runs key xs, ∀ y ∈ run.2, key y = run.1 := by
  induction xs with
  | nil => exact nofun
  | cons x xs ih => exact key_of_mem_consRun ih

theorem map_fst_consRun (key : α → κ) (x : α) (cut : List (κ × List α)) :
    (consRun key x cut).map Prod.fst = cut.map Prod.fst ∧ (cut.map Prod.fst).head? = some (key x) ∨
      (consRun key x cut).map Prod.fst = key x :: cut.map Prod.fst := by
  cases cut with
  | nil => exact Or.inr rfl
  | cons run rest =>
      obtain ⟨k, g⟩ := run
      rw [consRun]
      split
      · rename_i hk
        exact Or.inl ⟨rfl, congrArg some hk.symm⟩
      · exact Or.inr rfl

/-- The keys of the runs are the keys of the entries. -/
theorem mem_keys_runs {k : κ} : k ∈ (runs key xs).map Prod.fst ↔ ∃ x ∈ xs, key x = k := by
  induction xs with
  | nil => simp [runs]
  | cons x xs ih =>
      have hor : (∃ y ∈ x :: xs, key y = k) ↔ key x = k ∨ ∃ y ∈ xs, key y = k := by simp
      rw [hor, ← ih, runs]
      rcases map_fst_consRun key x (runs key xs) with ⟨heq, hhead⟩ | heq
      · rw [heq]
        refine ⟨Or.inr, fun hk => hk.elim (fun hk => ?_) id⟩
        exact List.mem_of_mem_head? (hk ▸ hhead)
      · rw [heq, List.mem_cons, eq_comm]

/-- The totals of the runs are the total of the list. -/
theorem sum_map_runs (key : α → κ) (weight : α → ℕ) (xs : List α) :
    ((runs key xs).map fun run => (run.2.map weight).sum).sum = (xs.map weight).sum := by
  conv_rhs => rw [← flatMap_runs key xs]
  rw [List.map_flatMap, List.flatMap_def, List.sum_flatten, List.map_map]
  rfl

end

/-! ### Sorted lists -/

section

variable [DecidableEq κ] [LE κ] [LT κ] [Std.IsLinearOrder κ] [Std.LawfulOrderLT κ]
variable {key : α → κ} {xs : List α}

/-- The runs of a sorted list have increasing keys, so no key has two. -/
theorem pairwise_runs (h : xs.Pairwise fun x y => key x ≤ key y) :
    (runs key xs).Pairwise fun a b => a.1 < b.1 := by
  rw [← List.pairwise_map (f := Prod.fst)]
  induction xs with
  | nil => exact List.Pairwise.nil
  | cons x xs ih =>
      obtain ⟨hx, hxs⟩ := List.pairwise_cons.mp h
      rw [runs]
      rcases map_fst_consRun key x (runs key xs) with ⟨heq, -⟩ | heq
      · rw [heq]
        exact ih hxs
      · rcases hcut : runs key xs with _ | ⟨⟨k, g⟩, rest⟩
        · rw [consRun]
          exact List.pairwise_singleton _ _
        · have hsorted := ih hxs
          rw [hcut] at heq hsorted
          rw [heq]
          -- the keys behind `x` are not smaller, and the first of them is another
          have hne : key x ≠ k := by
            intro hk
            rw [consRun, if_pos hk] at heq
            exact absurd (congrArg List.length heq) (by simp)
          have hlt : key x < k := by
            obtain ⟨y, hy, rfl⟩ :=
              mem_keys_runs.mp (show k ∈ (runs key xs).map Prod.fst by simp [hcut])
            exact Std.lt_of_le_of_ne (hx y hy) hne
          refine List.pairwise_cons.mpr ⟨?_, hsorted⟩
          refine List.forall_mem_cons.mpr ⟨hlt, fun k' hk' => ?_⟩
          exact Std.lt_trans hlt ((List.pairwise_cons.mp hsorted).1 k' hk')

/-- **A run of a sorted list** has all the entries of its key, in order. -/
theorem eq_filter_of_mem_runs (h : xs.Pairwise fun x y => key x ≤ key y) {run : κ × List α}
    (hrun : run ∈ runs key xs) : run.2 = xs.filter fun x => decide (key x = run.1) := by
  have hsorted := pairwise_runs h
  conv_rhs => rw [← flatMap_runs key xs]
  have hkeys : ∀ r ∈ runs key xs, ∀ y ∈ r.2, key y = r.1 := key_of_mem_runs
  generalize runs key xs = cut at *
  induction cut with
  | nil => cases hrun
  | cons first rest ih =>
      obtain ⟨hfirst, hrest⟩ := List.pairwise_cons.mp hsorted
      obtain ⟨hown, hothers⟩ := List.forall_mem_cons.mp hkeys
      rw [List.flatMap_cons, List.filter_append]
      rcases List.mem_cons.mp hrun with rfl | hmem
      · -- no later run has an entry of this key
        have hall : run.2.filter (fun x => decide (key x = run.1)) = run.2 :=
          List.filter_eq_self.mpr fun y hy => decide_eq_true (hown y hy)
        have hnone : (rest.flatMap Prod.snd).filter (fun x => decide (key x = run.1)) = [] := by
          refine List.filter_eq_nil_iff.mpr fun y hy => ?_
          obtain ⟨r, hr, hyr⟩ := List.mem_flatMap.mp hy
          rw [hothers r hr y hyr, decide_eq_true_eq]
          exact (Std.ne_of_lt (hfirst r hr)).symm
        rw [hall, hnone, List.append_nil]
      · have hnone : first.2.filter (fun x => decide (key x = run.1)) = [] := by
          refine List.filter_eq_nil_iff.mpr fun y hy => ?_
          rw [hown y hy, decide_eq_true_eq]
          exact Std.ne_of_lt (hfirst run hmem)
        rw [hnone, List.nil_append]
        exact ih hmem hrest hothers

/-! ### Totals -/

/-- Remainders add up to the total of the numbers exactly if they are the numbers. -/
theorem sum_map_mod_eq_iff {β : Type*} {f : β → ℕ} {n : ℕ} {ys : List β} :
    (ys.map fun y => f y % n).sum = (ys.map f).sum ↔ ∀ y ∈ ys, f y % n = f y := by
  induction ys with
  | nil => simp
  | cons y ys ih =>
      have hle : (ys.map fun y => f y % n).sum ≤ (ys.map f).sum :=
        List.sum_le_sum fun y _ => Nat.mod_le (f y) n
      have hone := Nat.mod_le (f y) n
      rw [List.map_cons, List.map_cons, List.sum_cons, List.sum_cons, List.forall_mem_cons, ← ih]
      omega

/-- **Totals kept modulo a number** add up to the total of a sorted list exactly if the
entries of no key reach that number. -/
theorem sum_map_mod_runs_eq_iff (h : xs.Pairwise fun x y => key x ≤ key y) (weight : α → ℕ) {n : ℕ}
    (hn : 0 < n) :
    ((runs key xs).map fun run => (run.2.map weight).sum % n).sum = (xs.map weight).sum ↔
      ∀ k, ((xs.filter fun x => decide (key x = k)).map weight).sum < n := by
  rw [← sum_map_runs key, sum_map_mod_eq_iff]
  constructor
  · intro hall k
    by_cases hk : k ∈ (runs key xs).map Prod.fst
    · obtain ⟨run, hrun, rfl⟩ := List.mem_map.mp hk
      rw [← eq_filter_of_mem_runs h hrun]
      exact (hall run hrun) ▸ Nat.mod_lt _ hn
    · -- a key that no entry has
      have hnone : (xs.filter fun x => decide (key x = k)) = [] := by
        refine List.filter_eq_nil_iff.mpr fun x hx hkey => hk ?_
        exact mem_keys_runs.mpr ⟨x, hx, of_decide_eq_true hkey⟩
      rw [hnone]
      exact hn
  · intro hall run hrun
    rw [eq_filter_of_mem_runs h hrun]
    exact Nat.mod_eq_of_lt (hall run.1)

end

/-! ### Positions -/

section

variable {ν : Type*} [DecidableEq κ]

/-- The position of a key in a list of entries with keys. -/
def position (k : κ) (entries : List (κ × ν)) : ℕ := entries.findIdx fun e => decide (e.1 = k)

theorem key_at_position {k : κ} {entries : List (κ × ν)} (h : k ∈ entries.map Prod.fst) :
    ∃ hlt : position k entries < entries.length, (entries[position k entries]).1 = k := by
  obtain ⟨e, he, rfl⟩ := List.mem_map.mp h
  have hlt : position e.1 entries < entries.length :=
    List.findIdx_lt_length_of_exists ⟨e, he, decide_eq_true rfl⟩
  exact ⟨hlt, of_decide_eq_true (List.findIdx_getElem (w := hlt))⟩

variable [LE κ] [LT κ] [Std.LawfulOrderLT κ]

/-- **Positions in a list with increasing keys** compare as the keys do. -/
theorem position_iff {entries : List (κ × ν)} (hsorted : entries.Pairwise fun a b => a.1 < b.1)
    {j k : κ} (hj : j ∈ entries.map Prod.fst) (hk : k ∈ entries.map Prod.fst) :
    (position j entries = position k entries ↔ j = k) ∧
      (position j entries < position k entries ↔ j < k) := by
  obtain ⟨hltj, hkeyj⟩ := key_at_position hj
  obtain ⟨hltk, hkeyk⟩ := key_at_position hk
  have hlt := List.pairwise_iff_getElem.mp hsorted
  have hjk : position j entries < position k entries → j < k := by
    intro h
    rw [← hkeyj, ← hkeyk]
    exact hlt _ _ hltj hltk h
  have hkj : position k entries < position j entries → k < j := by
    intro h
    rw [← hkeyj, ← hkeyk]
    exact hlt _ _ hltk hltj h
  have heq : position j entries = position k entries → j = k := by
    intro h
    rw [← hkeyj, ← hkeyk]
    simp only [h]
  refine ⟨⟨heq, fun h => by rw [h]⟩, hjk, fun h => ?_⟩
  rcases Nat.lt_trichotomy (position j entries) (position k entries) with hcase | hcase | hcase
  · exact hcase
  · exact absurd (heq hcase) (Std.ne_of_lt h)
  · exact absurd (hkj hcase) (Std.not_gt_of_lt h)

end

end TradingDesk.Core
