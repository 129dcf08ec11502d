import Mathlib.Order.Bounds.Basic

/-!
# TradingDesk.Core.Assignments

**Logs of assignments.** What a procedure assigns to the cells of a list, in order, decides
what the cells are afterwards: the last assignment to a cell is kept, the earlier ones are
overwritten. So the extremes of all values that were assigned are those of the cells
exactly if no overwritten value lies beyond all that are kept.
-/

namespace TradingDesk.Core

variable {α : Type*}

/-- The cells behind all assignments. -/
def assignAll (cells : List α) (log : List (ℕ × α)) : List α :=
  log.foldl (fun cells a => cells.set a.1 a.2) cells

/-- The values that stay, each the last one of its cell. -/
def kept : List (ℕ × α) → List α
  | [] => []
  | a :: log => if a.1 ∈ log.map Prod.fst then kept log else a.2 :: kept log

/-- The values that another one takes the place of. -/
def overwritten : List (ℕ × α) → List α
  | [] => []
  | a :: log => if a.1 ∈ log.map Prod.fst then a.2 :: overwritten log else overwritten log

/-! ### The cells -/

section

variable {cells : List α} {log log' : List (ℕ × α)} {i : ℕ} {x : α}

theorem assignAll_cons (cells : List α) (a : ℕ × α) (log : List (ℕ × α)) :
    assignAll cells (a :: log) = assignAll (cells.set a.1 a.2) log := rfl

theorem assignAll_append (cells : List α) (log log' : List (ℕ × α)) :
    assignAll cells (log ++ log') = assignAll (assignAll cells log) log' := List.foldl_append

@[simp] theorem length_assignAll (cells : List α) (log : List (ℕ × α)) :
    (assignAll cells log).length = cells.length := by
  induction log generalizing cells with
  | nil => rfl
  | cons a log ih => rw [assignAll_cons, ih, List.length_set]

/-- A cell that nothing is assigned to. -/
theorem getElem?_assignAll_of_notMem (h : ∀ a ∈ log, a.1 ≠ i) :
    (assignAll cells log)[i]? = cells[i]? := by
  induction log generalizing cells with
  | nil => rfl
  | cons a log ih =>
      rw [assignAll_cons, ih fun b hb => h b (List.mem_cons_of_mem a hb)]
      exact List.getElem?_set_ne (h a List.mem_cons_self)

/-- The cell of the last assignment. -/
theorem getElem?_assignAll_getLast (h : log.getLast? = some (i, x)) (hi : i < cells.length) :
    (assignAll cells log)[i]? = some x := by
  obtain ⟨log, rfl⟩ := List.getLast?_eq_some_iff.mp h
  rw [assignAll_append]
  exact List.getElem?_set_self (by rwa [length_assignAll])

/-- A value behind all assignments is a value that is kept, or it was there and nothing was
assigned to its cell. -/
theorem mem_assignAll_iff (hlog : ∀ a ∈ log, a.1 < cells.length) :
    x ∈ assignAll cells log ↔ x ∈ kept log ∨ ∃ i, cells[i]? = some x ∧ i ∉ log.map Prod.fst := by
  induction log generalizing cells with
  | nil => simp [assignAll, kept, List.mem_iff_getElem?]
  | cons a log ih =>
      obtain ⟨i, v⟩ := a
      have hi : i < cells.length := hlog (i, v) List.mem_cons_self
      have hlog' : ∀ b ∈ log, b.1 < (cells.set i v).length := fun b hb => by
        rw [List.length_set]
        exact hlog b (List.mem_cons_of_mem _ hb)
      have hset : ∀ {j}, j ≠ i → (cells.set i v)[j]? = cells[j]? :=
        fun hj => List.getElem?_set_ne hj.symm
      rw [assignAll_cons, ih hlog', kept, List.map_cons]
      simp only [List.mem_cons, not_or]
      by_cases hmem : i ∈ log.map Prod.fst
      · -- the assignment is overwritten, and so was the cell before it
        rw [if_pos hmem]
        refine or_congr_right (exists_congr fun j => ?_)
        constructor
        · rintro ⟨hj, hjlog⟩
          have hji : j ≠ i := fun h => hjlog (h ▸ hmem)
          exact ⟨by rwa [hset hji] at hj, hji, hjlog⟩
        · rintro ⟨hj, hji, hjlog⟩
          exact ⟨by rwa [hset hji], hjlog⟩
      · rw [if_neg hmem, List.mem_cons, or_assoc, or_left_comm]
        refine or_congr_right ?_
        constructor
        · rintro ⟨j, hj, hjlog⟩
          by_cases hji : j = i
          · rw [hji, List.getElem?_set_self hi, Option.some.injEq] at hj
            exact Or.inl hj.symm
          · rw [hset hji] at hj
            exact Or.inr ⟨j, hj, hji, hjlog⟩
        · rintro (rfl | ⟨j, hj, hji, hjlog⟩)
          · exact ⟨i, List.getElem?_set_self hi, hmem⟩
          · exact ⟨j, by rwa [hset hji], hjlog⟩

/-- If there is an assignment to every cell, the values behind them are those that are kept. -/
theorem mem_assignAll_of_covers (hlog : ∀ a ∈ log, a.1 < cells.length)
    (hcovers : ∀ i < cells.length, i ∈ log.map Prod.fst) :
    x ∈ assignAll cells log ↔ x ∈ kept log := by
  rw [mem_assignAll_iff hlog, or_iff_left]
  rintro ⟨i, hi, hnot⟩
  exact hnot (hcovers i (List.getElem?_eq_some_iff.mp hi).1)

/-! ### Extremes -/

/-- Every value is kept or overwritten. -/
theorem mem_kept_or_mem_overwritten : x ∈ log.map Prod.snd ↔
    x ∈ kept log ∨ x ∈ overwritten log := by
  induction log with
  | nil => simp [kept, overwritten]
  | cons a log ih =>
      rw [List.map_cons, List.mem_cons, ih, kept, overwritten]
      by_cases hmem : a.1 ∈ log.map Prod.fst
      · rw [if_pos hmem, if_pos hmem, List.mem_cons, or_left_comm]
      · rw [if_neg hmem, if_neg hmem, List.mem_cons, or_assoc]

end

section

variable [PartialOrder α] {log : List (ℕ × α)} {m : α}

/-- The greatest of two sets' elements is in the first one exactly if the second one has
nothing above all of it. -/
theorem isGreatest_left_iff {s t : Set α} (h : IsGreatest (s ∪ t) m) :
    IsGreatest s m ↔ ∀ x ∈ t, ∃ y ∈ s, x ≤ y := by
  constructor
  · rintro ⟨hm, -⟩ x hx
    exact ⟨m, hm, h.2 (Or.inr hx)⟩
  · intro hle
    refine ⟨?_, fun x hx => h.2 (Or.inl hx)⟩
    rcases h.1 with hm | hm
    · exact hm
    · obtain ⟨y, hy, hmy⟩ := hle m hm
      rwa [le_antisymm hmy (h.2 (Or.inl hy))]

/-- **The highest value assigned** is the highest one kept exactly if no overwritten value is above
all that are kept. -/
theorem isGreatest_kept_iff (h : IsGreatest {x | x ∈ log.map Prod.snd} m) :
    IsGreatest {x | x ∈ kept log} m ↔ ∀ x ∈ overwritten log, ∃ y ∈ kept log, x ≤ y := by
  refine isGreatest_left_iff (t := {x | x ∈ overwritten log}) ?_
  rwa [show {x | x ∈ kept log} ∪ {x | x ∈ overwritten log} = {x | x ∈ log.map Prod.snd} from
    Set.ext fun x => mem_kept_or_mem_overwritten.symm]

/-- The lowest one, likewise. -/
theorem isLeast_kept_iff (h : IsLeast {x | x ∈ log.map Prod.snd} m) :
    IsLeast {x | x ∈ kept log} m ↔ ∀ x ∈ overwritten log, ∃ y ∈ kept log, y ≤ x :=
  @isGreatest_kept_iff αᵒᵈ _ log m h

end

end TradingDesk.Core
