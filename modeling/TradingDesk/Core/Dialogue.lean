import Mathlib.Data.List.Basic

/-!
# TradingDesk.Core.Dialogue

**Programs that talk to a service.** Each request is written down with its answer, and the
program may give up, which leaves what was written down. What holds of a program that did not
give up is read off its parts, one after the other.
-/

namespace TradingDesk.Core

/-- A program with the requests it has made so far, each with its answer. -/
abbrev Dialogue (R A ε : Type) := EStateM ε (List (R × A))

namespace Dialogue

variable {R A ε α β : Type}

/-- A request. The answer may depend on everything that was asked before. -/
def ask (answers : List (R × A) → R → A) (r : R) : Dialogue R A ε A := do
  let log ← get
  let a := answers log r
  set (log ++ [(r, a)])
  return a

/-- The answer is written down. -/
theorem run_ask_eq_ok {answers : List (R × A) → R → A} {r : R} {a : A} {log log' : List (R × A)}
    (h : (ask answers r : Dialogue R A ε A).run log = .ok a log') :
    answers log r = a ∧ log' = log ++ [(r, a)] := by
  cases h
  exact ⟨rfl, rfl⟩

/-- A program that has gone well has gone well in both its parts. -/
theorem run_bind_eq_ok {x : Dialogue R A ε α} {f : α → Dialogue R A ε β} {b : β}
    {log log' : List (R × A)} (h : (x >>= f).run log = .ok b log') :
    ∃ a middle, x.run log = .ok a middle ∧ (f a).run middle = .ok b log' := by
  rw [EStateM.run_bind] at h
  cases hx : x.run log with
  | error e s => simp [hx] at h
  | ok a middle => exact ⟨a, middle, rfl, by simpa [hx] using h⟩

/-- **A loop that has gone well.** What a round keeps of the elements that are done holds of all. -/
theorem run_forM_eq_ok {f : α → Dialogue R A ε Unit} {P : List α → List (R × A) → Prop}
    (step : ∀ done a log log', P done log → (f a).run log = .ok () log' → P (done ++ [a]) log')
    {xs done : List α} {log log' : List (R × A)} (h : P done log)
    (hrun : EStateM.run (forM xs f) log = .ok () log') : P (done ++ xs) log' := by
  induction xs generalizing done log with
  | nil =>
      cases hrun
      rwa [List.append_nil]
  | cons a xs ih =>
      rw [List.forM_cons] at hrun
      obtain ⟨⟨⟩, middle, hfirst, hrest⟩ := run_bind_eq_ok hrun
      rw [List.append_cons]
      exact ih (step done a log middle h hfirst) hrest

end Dialogue

end TradingDesk.Core
