import TradingDesk.Core.Machine
import Mathlib.Data.List.Perm.Lattice

/-!
# TradingDesk.Core.Local

**Steps that stay within a footprint.** A state is seen through the values at its
locations, and each input has the locations that its step may read and write. Steps
with disjoint footprints commute, answers included, so a block of inputs whose
footprints are pairwise disjoint may be run in any order.
-/

namespace TradingDesk.Core

variable {σ α ι ν ο : Type*}

/-- The step of every input stays within the input's footprint. `get` reads a location of
a state; states are told apart by their locations only. -/
structure IsLocal (get : σ → ι → ν) (step : σ → α → ο × σ) (footprint : α → List ι) : Prop where
  /-- Outside the footprint nothing changes. -/
  frame : ∀ (s : σ) (a : α) {i : ι}, i ∉ footprint a → get (step s a).2 i = get s i
  /-- The answer depends on the footprint only. -/
  output : ∀ {s t : σ} {a : α}, (∀ i ∈ footprint a, get s i = get t i) → (step s a).1 = (step t a).1
  /-- So does what is written there. -/
  next : ∀ {s t : σ} {a : α}, (∀ i ∈ footprint a, get s i = get t i) →
    ∀ i ∈ footprint a, get (step s a).2 i = get (step t a).2 i

namespace IsLocal

variable {get : σ → ι → ν} {step : σ → α → ο × σ} {footprint : α → List ι}

/-- Only what is read and written matters, so the step respects equality of all locations. -/
theorem simulates (h : IsLocal get step footprint) :
    Simulates step step fun s t => get s = get t where
  output hst _ := h.output fun i _ => congrFun hst i
  next := by
    intro s t hst a
    funext i
    by_cases hi : i ∈ footprint a
    · exact h.next (fun i _ => congrFun hst i) i hi
    · rw [h.frame s a hi, h.frame t a hi, hst]

section

variable {a b : α}

/-- A step elsewhere does not change an answer. -/
theorem output_after (h : IsLocal get step footprint) (hd : (footprint a).Disjoint (footprint b))
    (s : σ) : (step (step s a).2 b).1 = (step s b).1 :=
  h.output fun _ hi => h.frame s a fun hc => hd hc hi

/-- The location is the first input's: the other one neither writes it nor what the
first one reads. -/
theorem get_comm_of_mem (h : IsLocal get step footprint)
    (hd : (footprint a).Disjoint (footprint b)) (s : σ) {i : ι} (hi : i ∈ footprint a) :
    get (step (step s a).2 b).2 i = get (step (step s b).2 a).2 i := by
  have hread : ∀ j ∈ footprint a, get s j = get (step s b).2 j :=
    fun j hj => (h.frame s b fun hc => hd hj hc).symm
  rw [h.frame (step s a).2 b fun hc => hd hi hc]
  exact h.next hread i hi

/-- **Steps with disjoint footprints commute.** -/
theorem get_comm (h : IsLocal get step footprint) (hd : (footprint a).Disjoint (footprint b))
    (s : σ) : get (step (step s a).2 b).2 = get (step (step s b).2 a).2 := by
  funext i
  by_cases ha : i ∈ footprint a
  · exact h.get_comm_of_mem hd s ha
  · by_cases hb : i ∈ footprint b
    · exact (h.get_comm_of_mem hd.symm s hb).symm
    · rw [h.frame _ b hb, h.frame s a ha, h.frame _ a ha, h.frame s b hb]

end

/-- Each input of a word with its answer. -/
def answers (step : σ → α → ο × σ) (s : σ) (w : List α) : List (α × ο) := w.zip (outputs step s w)

theorem answers_cons (step : σ → α → ο × σ) (s : σ) (a : α) (w : List α) :
    answers step s (a :: w) = (a, (step s a).1) :: answers step (step s a).2 w := rfl

theorem length_outputs (step : σ → α → ο × σ) (s : σ) (w : List α) :
    (outputs step s w).length = w.length := by
  induction w generalizing s with
  | nil => rfl
  | cons a w ih => rw [outputs_cons, List.length_cons, ih, List.length_cons]

theorem answers_append (step : σ → α → ο × σ) (s : σ) (v w : List α) :
    answers step s (v ++ w) = answers step s v ++ answers step (run step s v) w := by
  rw [answers, outputs_append, List.zip_append (length_outputs step s v).symm]
  rfl

theorem answers_congr (h : IsLocal get step footprint)
    {s t : σ} (hst : get s = get t) (w : List α) :
    answers step s w = answers step t w := by
  rw [answers, answers, h.simulates.outputs hst]

/-- **A block of inputs with pairwise disjoint footprints may be run in any order.** The
state after it is the same, and each input gets the same answer. -/
theorem run_perm (h : IsLocal get step footprint) {v w : List α} (hp : v.Perm w)
    (hd : v.Pairwise fun a b => (footprint a).Disjoint (footprint b)) (s : σ) :
    get (run step s v) = get (run step s w) ∧ (answers step s v).Perm (answers step s w) := by
  induction hp generalizing s with
  | nil => exact ⟨rfl, List.Perm.refl _⟩
  | cons a _ ih =>
      obtain ⟨hget, hans⟩ := ih hd.of_cons (step s a).2
      exact ⟨hget, hans.cons _⟩
  | swap a b w =>
      have hba : (footprint b).Disjoint (footprint a) :=
        List.rel_of_pairwise_cons hd List.mem_cons_self
      have hget := h.get_comm hba s
      refine ⟨h.simulates.run hget w, ?_⟩
      rw [answers_cons, answers_cons, answers_cons, answers_cons, h.output_after hba,
        h.output_after hba.symm, h.answers_congr hget]
      exact List.Perm.swap _ _ _
  | trans hvu _ ihv ihw =>
      have hdu := (hvu.pairwise_iff fun hab => hab.symm).mp hd
      obtain ⟨hget, hans⟩ := ihv hd s
      obtain ⟨hget', hans'⟩ := ihw hdu s
      exact ⟨hget.trans hget', hans.trans hans'⟩

/-- The same with more inputs behind the block. -/
theorem run_perm_append (h : IsLocal get step footprint) {v w : List α} (hp : v.Perm w)
    (hd : v.Pairwise fun a b => (footprint a).Disjoint (footprint b)) (s : σ) (post : List α) :
    get (run step s (v ++ post)) = get (run step s (w ++ post)) ∧
      (answers step s (v ++ post)).Perm (answers step s (w ++ post)) := by
  obtain ⟨hget, hans⟩ := h.run_perm hp hd s
  rw [run_append, run_append, answers_append, answers_append, h.answers_congr hget]
  exact ⟨h.simulates.run hget post, hans.append_right _⟩

end IsLocal

end TradingDesk.Core
