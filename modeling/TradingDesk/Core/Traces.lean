import TradingDesk.Core.Local

/-!
# TradingDesk.Core.Traces

**Reordering a whole run.** Of a word a location sees the inputs whose footprint it is in. Two
words that look alike to every location have the same inputs, and differ in the order of inputs
with disjoint footprints only. A step that stays within its footprint cannot tell such words
apart: the state behind them is the same, and every input has the same answer.

The proof moves the first input of one word to the front of the other, past inputs that it
shares no location with.

Where the locations fall into two parts and no input has some of both, the inputs of one part
can be run without the others.
-/

namespace TradingDesk.Core

variable {σ α ι ν ο : Type*}

section

variable [DecidableEq ι]

/-- What a location sees of a word. -/
def seenBy (footprint : α → List ι) (i : ι) (w : List α) : List α :=
  w.filter fun a => decide (i ∈ footprint a)

variable {footprint : α → List ι} {i : ι} {a : α} {v w : List α}

theorem seenBy_append (v w : List α) :
    seenBy footprint i (v ++ w) = seenBy footprint i v ++ seenBy footprint i w :=
  List.filter_append ..

theorem seenBy_cons_of_mem (h : i ∈ footprint a) (w : List α) :
    seenBy footprint i (a :: w) = a :: seenBy footprint i w :=
  List.filter_cons_of_pos (decide_eq_true h)

theorem seenBy_cons_of_notMem (h : i ∉ footprint a) (w : List α) :
    seenBy footprint i (a :: w) = seenBy footprint i w :=
  List.filter_cons_of_neg (by simpa using h)

theorem seenBy_eq_nil : seenBy footprint i w = [] ↔ ∀ a ∈ w, i ∉ footprint a := by
  simp only [seenBy, List.filter_eq_nil_iff, decide_eq_true_eq]

/-- **The first input of one word is found in the other**, behind inputs that it shares no
location with. -/
theorem exists_front (ha : footprint a ≠ [])
    (h : ∀ i, seenBy footprint i (a :: v) = seenBy footprint i w) :
    ∃ x y, w = x ++ a :: y ∧ (∀ b ∈ x, (footprint a).Disjoint (footprint b)) ∧
      ∀ i, seenBy footprint i v = seenBy footprint i (x ++ y) := by
  obtain ⟨j, hj⟩ := List.exists_mem_of_ne_nil _ ha
  -- the first input that `j` sees
  have hfirst := h j
  rw [seenBy_cons_of_mem hj, eq_comm, seenBy, List.filter_eq_cons_iff] at hfirst
  obtain ⟨x, y, rfl, hx, -, -⟩ := hfirst
  have hmem : a ∉ x := fun hax => hx a hax (decide_eq_true hj)
  have hnil : ∀ i ∈ footprint a, seenBy footprint i x = [] := by
    intro i hi
    have hi' := h i
    rw [seenBy_cons_of_mem hi, seenBy_append, seenBy_cons_of_mem hi] at hi'
    cases hseen : seenBy footprint i x with
    | nil => rfl
    | cons b bs =>
        -- otherwise another location of `a` would have to see it in front of `a` itself
        rw [hseen, List.cons_append, List.cons.injEq] at hi'
        have hbx : b ∈ x := List.mem_of_mem_filter (p := fun a => decide (i ∈ footprint a))
          (show b ∈ seenBy footprint i x from hseen ▸ List.mem_cons_self)
        exact absurd (hi'.1 ▸ hbx) hmem
  refine ⟨x, y, rfl, fun b hb i hi hib => seenBy_eq_nil.mp (hnil i hi) b hb hib, fun i => ?_⟩
  have hi' := h i
  by_cases hi : i ∈ footprint a
  · rw [seenBy_cons_of_mem hi, seenBy_append, hnil i hi, List.nil_append, seenBy_cons_of_mem hi,
      List.cons.injEq] at hi'
    rw [seenBy_append, hnil i hi, List.nil_append]
    exact hi'.2
  · rw [seenBy_cons_of_notMem hi, seenBy_append, seenBy_cons_of_notMem hi] at hi'
    rw [seenBy_append]
    exact hi'

end

/-! ### Inputs read through a function -/

section

variable {β : Type*} (step : σ → α → ο × σ) (f : β → α)

theorem run_map (s : σ) (w : List β) :
    run (fun s b => step s (f b)) s w = run step s (w.map f) := by
  rw [run, run, List.foldl_map]

theorem answers_map (s : σ) (w : List β) :
    (IsLocal.answers (fun s b => step s (f b)) s w).map (Prod.map f id)
      = IsLocal.answers step s (w.map f) := by
  induction w generalizing s with
  | nil => rfl
  | cons b w ih =>
      rw [IsLocal.answers_cons, List.map_cons, ih, List.map_cons, IsLocal.answers_cons]
      rfl

end

namespace IsLocal

variable {get : σ → ι → ν} {step : σ → α → ο × σ} {footprint : α → List ι} {a : α} {x : List α}

/-- An input and inputs that share no location with it do not see each other. -/
theorem run_past (h : IsLocal get step footprint)
    (hd : ∀ b ∈ x, (footprint a).Disjoint (footprint b)) (s : σ) :
    get (run step (step s a).2 x) = get (step (run step s x) a).2 ∧
      answers step (step s a).2 x = answers step s x ∧
      (step (run step s x) a).1 = (step s a).1 := by
  induction x generalizing s with
  | nil => exact ⟨rfl, rfl, rfl⟩
  | cons b x ih =>
      obtain ⟨hb, hx⟩ := List.forall_mem_cons.mp hd
      have hcomm := h.get_comm hb s
      obtain ⟨hget, hanswers, hout⟩ := ih hx (step s b).2
      refine ⟨(h.simulates.run hcomm x).trans hget, ?_, hout.trans (h.output_after hb.symm s)⟩
      rw [answers_cons, answers_cons, h.output_after hb, h.answers_congr hcomm, hanswers]

/-- **Moving an input to the front**, past inputs that it shares no location with. -/
theorem run_move (h : IsLocal get step footprint)
    (hd : ∀ b ∈ x, (footprint a).Disjoint (footprint b)) (s : σ) (y : List α) :
    get (run step s (x ++ a :: y)) = get (run step s (a :: (x ++ y))) ∧
      ∃ front back, answers step s (x ++ a :: y) = front ++ (a, (step s a).1) :: back ∧
        answers step s (a :: (x ++ y)) = (a, (step s a).1) :: (front ++ back) ∧
        ∀ e ∈ front, e.1 ∈ x := by
  obtain ⟨hget, hanswers, hout⟩ := h.run_past hd s
  refine ⟨?_, answers step s x, answers step (run step (step s a).2 x) y, ?_, ?_, ?_⟩
  · rw [run_append, run_cons, run_cons, run_append]
    exact (h.simulates.run hget y).symm
  · rw [answers_append, answers_cons, hout, h.answers_congr hget.symm]
  · rw [answers_cons, answers_append, hanswers]
  · exact fun e he => (List.of_mem_zip he).1

variable [DecidableEq ι]

/-- **Words that look alike to every location are run alike.** The state behind them is the same,
they get the same answers altogether, and every location sees the same answers in the same order. -/
theorem run_of_seenBy (h : IsLocal get step footprint) (hne : ∀ a, footprint a ≠ []) {v w : List α}
    (hvw : ∀ i, seenBy footprint i v = seenBy footprint i w) (s : σ) :
    get (run step s v) = get (run step s w) ∧
      (answers step s v).Perm (answers step s w) ∧
      ∀ i, seenBy (fun e : α × ο => footprint e.1) i (answers step s v)
        = seenBy (fun e : α × ο => footprint e.1) i (answers step s w) := by
  induction v generalizing w s with
  | nil =>
      -- an input of `w` would be seen by its locations
      have hw : w = [] := by
        refine List.eq_nil_iff_forall_not_mem.mpr fun a ha => ?_
        obtain ⟨i, hi⟩ := List.exists_mem_of_ne_nil _ (hne a)
        exact seenBy_eq_nil.mp (hvw i).symm a ha hi
      subst hw
      exact ⟨rfl, List.Perm.refl _, fun _ => rfl⟩
  | cons a v ih =>
      obtain ⟨x, y, rfl, hd, hrest⟩ := exists_front (hne a) hvw
      obtain ⟨hget, hperm, hseen⟩ := ih hrest (step s a).2
      obtain ⟨hmove, front, back, hback, hfront, hx⟩ := h.run_move hd s y
      rw [answers_cons, List.cons.injEq] at hfront
      rw [hfront.2] at hperm hseen
      rw [hmove, hback, answers_cons]
      refine ⟨hget, (hperm.cons _).trans List.perm_middle.symm, fun i => ?_⟩
      rw [seenBy_append]
      by_cases hi : i ∈ footprint a
      · have hnil : seenBy (fun e : α × ο => footprint e.1) i front = [] :=
          seenBy_eq_nil.mpr fun e he hie => hd e.1 (hx e he) hi hie
        have hrest := hseen i
        rw [seenBy_append, hnil, List.nil_append] at hrest
        have hcons :=
          @seenBy_cons_of_mem _ _ _ (fun e : α × ο => footprint e.1) i (a, (step s a).1) hi
        rw [hnil, List.nil_append, hcons, hcons, hrest]
      · have hcons :=
          @seenBy_cons_of_notMem _ _ _ (fun e : α × ο => footprint e.1) i (a, (step s a).1) hi
        rw [hcons, hcons, hseen i, seenBy_append]

/-! ### Running a part -/

/-- All locations of the input are in the part, or none is. -/
def Respects (footprint : α → List ι) (part : ι → Bool) (a : α) : Prop :=
  (∀ i ∈ footprint a, part i = true) ∨ ∀ i ∈ footprint a, part i = false

/-- The input has a location in the part. -/
def Touches (footprint : α → List ι) (part : ι → Bool) (a : α) : Bool := (footprint a).any part

omit [DecidableEq ι] in
/-- **A part is run on its own.** Its locations end as they do in the whole run, and its inputs get
the same answers. -/
theorem run_part (h : IsLocal get step footprint) {part : ι → Bool} {w : List α}
    (hw : ∀ a ∈ w, Respects footprint part a) {s t : σ}
    (hst : ∀ i, part i = true → get s i = get t i) :
    (∀ i, part i = true →
        get (run step s w) i = get (run step t (w.filter (Touches footprint part))) i) ∧
      (answers step s w).filter (fun e => Touches footprint part e.1)
        = answers step t (w.filter (Touches footprint part)) := by
  induction w generalizing s t with
  | nil => exact ⟨hst, rfl⟩
  | cons a w ih =>
      obtain ⟨ha, hw⟩ := List.forall_mem_cons.mp hw
      rw [answers_cons]
      by_cases htouch : Touches footprint part a = true
      · have hin : ∀ i ∈ footprint a, part i = true := by
          obtain ⟨i, hi, hpart⟩ := List.any_eq_true.mp htouch
          refine ha.resolve_right fun hout => ?_
          rw [hout i hi] at hpart
          cases hpart
        have hread : ∀ i ∈ footprint a, get s i = get t i := fun i hi => hst i (hin i hi)
        have hnext : ∀ i, part i = true → get (step s a).2 i = get (step t a).2 i := by
          intro i hi
          by_cases hia : i ∈ footprint a
          · exact h.next hread i hia
          · rw [h.frame s a hia, h.frame t a hia, hst i hi]
        obtain ⟨hget, hanswers⟩ := ih hw hnext
        have hkept := @List.filter_cons_of_pos _ (fun e : α × ο => Touches footprint part e.1)
          (a, (step s a).1) (answers step (step s a).2 w) htouch
        rw [List.filter_cons_of_pos htouch, hkept, answers_cons, h.output hread, hanswers]
        exact ⟨hget, rfl⟩
      · -- the input is of the other part, and changes nothing here
        have hnext : ∀ i, part i = true → get (step s a).2 i = get t i := by
          intro i hi
          rw [h.frame s a fun hia => htouch (List.any_eq_true.mpr ⟨i, hia, hi⟩), hst i hi]
        have hdropped := @List.filter_cons_of_neg _ (fun e : α × ο => Touches footprint part e.1)
          (a, (step s a).1) (answers step (step s a).2 w) htouch
        rw [List.filter_cons_of_neg htouch, hdropped]
        exact ih hw hnext

end IsLocal

end TradingDesk.Core
