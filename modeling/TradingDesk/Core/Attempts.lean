import Mathlib.Data.List.Basic

/-!
# TradingDesk.Core.Attempts

**Doing things up to the first that fails.** Whether an action is accepted may depend on those
that were done before it. What is done is always a front of what there was to do, and all of it
unless the action behind that front was not accepted.
-/

namespace TradingDesk.Core

variable {α : Type*}

/-- The first action that was not accepted, if any, and all that was done. -/
def attempt (accepts : List α → α → Bool) : List α → List α → Option α × List α
  | made, [] => (none, made)
  | made, a :: todo =>
    if accepts made a then attempt accepts (made ++ [a]) todo else (some a, made)

/-- A cut in a list of lists is a cut in one of them. -/
theorem exists_cut_of_flatMap {β : Type*} {f : β → List α}
    {bs : List β} {front back : List α} {a : α}
    (h : bs.flatMap f = front ++ a :: back) :
    ∃ complete b later front' back', bs = complete ++ b :: later ∧ f b = front' ++ a :: back' ∧
      front = complete.flatMap f ++ front' := by
  induction bs generalizing front with
  | nil => simp at h
  | cons b bs ih =>
      rw [List.flatMap_cons, List.append_eq_append_iff] at h
      rcases h with ⟨front', rfl, hrest⟩ | ⟨back', hb, hrest⟩
      · obtain ⟨complete, b', later, front'', back', rfl, hb', rfl⟩ := ih hrest
        exact ⟨b :: complete, b', later, front'', back',
          rfl, hb', by rw [List.flatMap_cons, List.append_assoc]⟩
      · cases back' with
        | nil =>
            -- the cut is at the beginning of a later list
            rw [List.append_nil] at hb
            obtain ⟨complete, b', later, front'', back'', rfl, hb', hfront⟩ := @ih [] hrest.symm
            refine ⟨b :: complete, b', later, front'', back'', rfl, hb', ?_⟩
            rw [List.flatMap_cons, List.append_assoc, ← hfront, List.append_nil, hb]
        | cons a' back' =>
            obtain ⟨rfl, -⟩ := List.cons.inj hrest
            exact ⟨[], b, bs, front, back', rfl, hb, rfl⟩

section

variable {accepts : List α → α → Bool}

@[simp] theorem attempt_nil (made : List α) : attempt accepts made [] = (none, made) := rfl

/-- Two lists of actions, the second one if the first was done. -/
theorem attempt_append (made todo todo' : List α) :
    attempt accepts made (todo ++ todo') = match attempt accepts made todo with
      | (none, made) => attempt accepts made todo'
      | (some a, made) => (some a, made) := by
  induction todo generalizing made with
  | nil => rfl
  | cons a todo ih =>
      rw [List.cons_append, attempt, attempt]
      split
      · exact ih (made ++ [a])
      · rfl

/-- **What was done is a front of what there was to do**, and if that is not all, the next action
was not accepted. -/
theorem attempt_cases (made todo : List α) :
    attempt accepts made todo = (none, made ++ todo) ∨
      ∃ done a rest, todo = done ++ a :: rest ∧ attempt accepts made todo = (some a, made ++ done) ∧
        accepts (made ++ done) a = false := by
  induction todo generalizing made with
  | nil => exact Or.inl (by rw [attempt_nil, List.append_nil])
  | cons a todo ih =>
      rw [attempt]
      cases haccepts : accepts made a with
      | false => exact Or.inr ⟨[], a, todo, rfl, by simp, by simpa using haccepts⟩
      | true =>
          rw [if_pos rfl]
          rcases ih (made ++ [a]) with hall | ⟨done, b, rest, rfl, hstop, hrejects⟩
          · exact Or.inl (by rw [hall, List.append_assoc]; rfl)
          · refine Or.inr ⟨a :: done, b, rest, rfl, ?_, ?_⟩
            · rw [hstop, List.append_assoc]
              rfl
            · simpa [List.append_assoc] using hrejects

/-- What is never asked does not matter. -/
theorem attempt_congr {accepts' : List α → α → Bool} {todo : List α}
    (h : ∀ made, ∀ a ∈ todo, accepts made a = accepts' made a) (made : List α) :
    attempt accepts made todo = attempt accepts' made todo := by
  induction todo generalizing made with
  | nil => rfl
  | cons a todo ih =>
      rw [attempt, attempt, h made a List.mem_cons_self,
        ih fun made b hb => h made b (List.mem_cons_of_mem a hb)]

end

end TradingDesk.Core
