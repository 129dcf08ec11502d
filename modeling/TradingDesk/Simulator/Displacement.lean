import TradingDesk.Core.Assignments
import TradingDesk.Simulator.QuoteGenerator

/-!
# TradingDesk.Simulator.Displacement

**The assignments of `fill_values`**, in order, each a cell and the price it gets. They only
depend on the prices at the ends of the range and on the draws; the vector in between is not
read. The recursion makes these assignments, with one draw for each, and returns the lowest
and the highest of the ends and of the prices assigned.

The last assignment of every range is to its last cell.
-/

namespace TradingDesk.Simulator

open TradingDesk.Core

/-! ### The assignments -/

/-- The assignments to `*middle`, from the range's ends `front` and `back`. -/
def displacements (draws : ℕ → ℚ) (first last : ℕ) (front back : ℚ) (drawn generation : ℕ) :
    List (ℕ × ℚ) :=
  if _ : last - first < 2 then []
  else
    let middle := first + (last - first) / 2
    let value := newValue front back (draws drawn) generation
    let left := (middle, value) ::
      if _ : 2 ≤ middle - first then
        displacements draws first (middle + 1) front value (drawn + 1) (generation + 1)
      else []
    -- what the first half has made of the middle
    let front := (left.getLast (List.cons_ne_nil _ _)).2
    left ++
      if _ : 2 ≤ last - middle then
        displacements draws middle last front back (drawn + left.length) (generation + 1)
      else []
termination_by last - first
decreasing_by
  all_goals omega

theorem displacements_eq {draws : ℕ → ℚ} {first last drawn generation : ℕ} {front back : ℚ}
    (h2 : first + 2 ≤ last) {middle : ℕ} (hmiddle : middle = first + (last - first) / 2) {value : ℚ}
    (hvalue : value = newValue front back (draws drawn) generation) {left : List (ℕ × ℚ)}
    (hleft : left = (middle, value) ::
      if 2 ≤ middle - first then
        displacements draws first (middle + 1) front value (drawn + 1) (generation + 1)
      else []) {x : ℚ} (hx : left.getLast?.map Prod.snd = some x) :
    displacements draws first last front back drawn generation
      = left ++
        if 2 ≤ last - middle then
          displacements draws middle last x back (drawn + left.length) (generation + 1)
        else [] := by
  subst hmiddle hvalue hleft
  rw [List.getLast?_eq_some_getLast (List.cons_ne_nil _ _), Option.map_some,
    Option.some.injEq] at hx
  rw [displacements, dif_neg (by omega), ← hx]
  rfl

/-- Which cells of a range are assigned: none but those behind the first one, all of these, and
the last one last. The prices are positive. -/
structure IsDisplacing (log : List (ℕ × ℚ)) (first last : ℕ) : Prop where
  inside : ∀ a ∈ log, first < a.1 ∧ a.1 < last
  pos : ∀ a ∈ log, 0 < a.2
  covers : ∀ i, first < i → i < last → i ∈ log.map Prod.fst
  ends : log.getLast?.map Prod.fst = some (last - 1)

namespace IsDisplacing

variable {log log' : List (ℕ × ℚ)} {first middle last : ℕ}

/-- The middle, and then the first half, if it has cells of its own between its ends. -/
theorem cons {value : ℚ} (hvalue : 0 < value) (hfirst : first < middle)
    (h : 2 ≤ middle - first → IsDisplacing log first (middle + 1)) :
    IsDisplacing ((middle, value) :: if 2 ≤ middle - first then log else []) first
      (middle + 1) := by
  by_cases hleft : 2 ≤ middle - first
  · obtain ⟨inside, pos, covers, ends⟩ := h hleft
    rw [if_pos hleft]
    refine ⟨?_, ?_, fun i hi hi' => List.mem_cons_of_mem _ (covers i hi hi'), ?_⟩
    · intro a ha
      rcases List.mem_cons.mp ha with rfl | ha
      · exact ⟨hfirst, Nat.lt_succ_self middle⟩
      · exact inside a ha
    · intro a ha
      rcases List.mem_cons.mp ha with rfl | ha
      · exact hvalue
      · exact pos a ha
    · cases log with
      | nil => cases ends
      | cons a log => rwa [List.getLast?_cons_cons]
  · rw [if_neg hleft]
    refine ⟨fun a ha => ?_, fun a ha => ?_, fun i hi hi' => ?_, rfl⟩
    · rw [List.mem_singleton.mp ha]
      exact ⟨hfirst, Nat.lt_succ_self middle⟩
    · rw [List.mem_singleton.mp ha]
      exact hvalue
    · rw [List.map_singleton, List.mem_singleton]
      show i = middle
      omega

/-- The second half behind the first one. -/
theorem append (h : IsDisplacing log first (middle + 1)) (hfirst : first < middle)
    (hlast : middle < last) (h' : 2 ≤ last - middle → IsDisplacing log' middle last) :
    IsDisplacing (log ++ if 2 ≤ last - middle then log' else []) first last := by
  by_cases hright : 2 ≤ last - middle
  · obtain ⟨inside, pos, covers, ends⟩ := h' hright
    rw [if_pos hright]
    refine ⟨?_, ?_, ?_, ?_⟩
    · intro a ha
      rcases List.mem_append.mp ha with ha | ha
      · have := h.inside a ha
        omega
      · have := inside a ha
        omega
    · intro a ha
      rcases List.mem_append.mp ha with ha | ha
      · exact h.pos a ha
      · exact pos a ha
    · intro i hi hi'
      rw [List.map_append, List.mem_append]
      rcases Nat.lt_or_ge middle i with hmid | hmid
      · exact Or.inr (covers i hmid hi')
      · exact Or.inl (h.covers i hi (Nat.lt_succ_of_le hmid))
    · rw [List.getLast?_append]
      cases hlog : log'.getLast? with
      | none =>
          rw [hlog] at ends
          cases ends
      | some a => rwa [hlog] at ends
  · obtain rfl : last = middle + 1 := by omega
    rwa [if_neg hright, List.append_nil]

/-- The cells in front of the range, its first one and those behind it keep what they have. -/
theorem getElem?_outside (h : IsDisplacing log first last) (cells : List ℚ) {i : ℕ}
    (hi : i ≤ first ∨ last ≤ i) : (assignAll cells log)[i]? = cells[i]? := by
  refine getElem?_assignAll_of_notMem fun a ha => ?_
  have := h.inside a ha
  omega

/-- The last cell has the price that was assigned last. -/
theorem getElem?_last (h : IsDisplacing log first last) (cells : List ℚ)
    (hlen : last - 1 < cells.length) :
    ∃ x, log.getLast? = some (last - 1, x) ∧ 0 < x ∧ (assignAll cells log)[last - 1]? = some x := by
  obtain ⟨⟨i, x⟩, hlast, rfl⟩ := Option.map_eq_some_iff.mp h.ends
  exact ⟨x, hlast, h.pos _ (List.mem_of_getLast? hlast), getElem?_assignAll_getLast hlast hlen⟩

end IsDisplacing

/-- **Run lemma.** The assignments for a range are to its cells behind the first one. -/
theorem displacements_isDisplacing (draws : ℕ → ℚ) {n : ℕ} :
    ∀ {first last : ℕ} (front back : ℚ) (drawn generation : ℕ),
      last - first ≤ n → first + 2 ≤ last →
      IsDisplacing (displacements draws first last front back drawn generation) first last := by
  induction n with
  | zero =>
      intro first last front back drawn generation hle h2
      omega
  | succ n ih =>
      intro first last front back drawn generation hle h2
      obtain ⟨middle, hmiddle⟩ : ∃ middle, middle = first + (last - first) / 2 := ⟨_, rfl⟩
      have hleft := @IsDisplacing.cons
        (displacements draws first (middle + 1) front
          (newValue front back (draws drawn) generation) (drawn + 1) (generation + 1))
        first middle (newValue front back (draws drawn) generation)
          (newValue_pos _ _ _ _) (by omega)
        fun h => ih _ _ _ _ (by omega) (by omega)
      obtain ⟨a, ha, -⟩ := Option.map_eq_some_iff.mp hleft.ends
      have hx := congrArg (Option.map Prod.snd) ha
      rw [displacements_eq h2 hmiddle rfl rfl hx]
      exact hleft.append (by omega) (by omega) fun h => ih _ _ _ _ (by omega) (by omega)

/-! ### What the recursion assigns -/

/-- The ends of a range, and the prices assigned. -/
def priced (front back : ℚ) (log : List (ℕ × ℚ)) : Set ℚ :=
  {x | x = front ∨ x = back ∨ x ∈ log.map Prod.snd}

/-- A vector behind the assignments of a log, one draw for each, and the extremes of all prices. -/
structure IsDisplaced (cells : List ℚ) (drawn : ℕ) (front back : ℚ) (log : List (ℕ × ℚ))
    (f : Filled) : Prop where
  values : f.values = assignAll cells log
  drawn : f.drawn = drawn + log.length
  least : IsLeast (priced front back log) f.min
  greatest : IsGreatest (priced front back log) f.max

namespace IsDisplaced

variable {cells : List ℚ} {drawn : ℕ} {front back front' back' : ℚ} {log log' : List (ℕ × ℚ)}
  {f g : Filled}

/-- `*middle = new_value`. -/
theorem single (cells : List ℚ) (drawn middle : ℕ) (front back value : ℚ) :
    IsDisplaced cells drawn front back [(middle, value)]
      (displace cells drawn middle front back value) := by
  have hpriced : priced front back [(middle, value)] = {front} ∪ {back} ∪ {value} := by
    ext x
    simp only [priced, List.map_singleton, List.mem_singleton, Set.mem_ofPred_eq, Set.mem_union,
      Set.mem_singleton_iff, or_assoc]
  refine ⟨rfl, rfl, ?_, ?_⟩
  · rw [hpriced]
    exact (isLeast_singleton.union isLeast_singleton).union isLeast_singleton
  · rw [hpriced]
    exact (isGreatest_singleton.union isGreatest_singleton).union isGreatest_singleton

/-- A call on a part of the range, whose ends have prices that were assigned before. -/
theorem append (h : IsDisplaced cells drawn front back log f)
    (hg : IsDisplaced f.values f.drawn front' back' log' g)
    (hfront : front' ∈ priced front back log)
    (hback : back' ∈ priced front back log) :
    IsDisplaced cells drawn front back (log ++ log') (f.extend g) := by
  have hpriced : priced front back (log ++ log')
      = priced front back log ∪ priced front' back' log' := by
    ext x
    constructor
    · rintro (hx | hx | hx)
      · exact Or.inl (Or.inl hx)
      · exact Or.inl (Or.inr (Or.inl hx))
      · rw [List.map_append, List.mem_append] at hx
        exact hx.imp (fun h => Or.inr (Or.inr h)) fun h => Or.inr (Or.inr h)
    · have hlog : priced front back log ⊆ priced front back (log ++ log') := by
        intro y hy
        refine hy.imp_right (Or.imp_right fun hy => ?_)
        rw [List.map_append]
        exact List.mem_append_left _ hy
      rintro (hx | rfl | rfl | hx)
      · exact hlog hx
      · exact hlog hfront
      · exact hlog hback
      · refine Or.inr (Or.inr ?_)
        rw [List.map_append]
        exact List.mem_append_right _ hx
  refine ⟨?_, ?_, ?_, ?_⟩
  · show g.values = _
    rw [hg.values, h.values, assignAll_append]
  · show g.drawn = _
    rw [hg.drawn, h.drawn, List.length_append, Nat.add_assoc]
  · rw [hpriced]
    exact h.least.union hg.least
  · rw [hpriced]
    exact h.greatest.union hg.greatest

/-- A call on a half of the range, if there is one. -/
theorem half {p : Prop} [Decidable p] (h : IsDisplaced cells drawn front back log f)
    {call : Option Filled} (hcall : p → ∃ g, call = some g ∧
      IsDisplaced f.values f.drawn front' back' log' g)
    (hfront : front' ∈ priced front back log) (hback : back' ∈ priced front back log) :
    ∃ g, (if p then call.map f.extend else some f) = some g ∧
      IsDisplaced cells drawn front back (log ++ if p then log' else []) g := by
  by_cases hp : p
  · obtain ⟨g, rfl, hg⟩ := hcall hp
    rw [if_pos hp, if_pos hp]
    exact ⟨_, rfl, h.append hg hfront hback⟩
  · rw [if_neg hp, if_neg hp, List.append_nil]
    exact ⟨f, rfl, h⟩

end IsDisplaced

/-- **Refinement.** On a range of at least two cells with positive ends, the recursion makes the
assignments of the log. The induction is on the number of cells; the front of the second half
is what the first one has made of the middle. -/
theorem fillValues_isDisplaced (draws : ℕ → ℚ) {n : ℕ} (hn : n < 2 ^ 32) :
    ∀ {cells : List ℚ} {first last : ℕ} {front back : ℚ} (drawn generation : ℕ),
      last - first ≤ n → first + 2 ≤ last → cells[first]? = some front → 0 < front →
      cells[last - 1]? = some back → 0 < back →
      ∃ f, fillValues draws cells drawn first last generation = some f ∧
        IsDisplaced cells drawn front back
          (displacements draws first last front back drawn generation) f := by
  induction n with
  | zero =>
      intro cells first last front back drawn generation hle h2
      omega
  | succ n ih =>
      intro cells first last front back drawn generation hle h2 hfront hfront0 hback hback0
      have ih := @ih (by omega)
      obtain ⟨middle, hmiddle⟩ : ∃ middle, middle = first + (last - first) / 2 := ⟨_, rfl⟩
      obtain ⟨value, hvalue⟩ : ∃ value, value = newValue front back (draws drawn) generation :=
        ⟨_, rfl⟩
      have hvalue0 : 0 < value := hvalue ▸ newValue_pos _ _ _ _
      have hlen : last - 1 < cells.length := (List.getElem?_eq_some_iff.mp hback).1
      obtain ⟨left, hleft⟩ : ∃ left, left = (middle, value) ::
          if 2 ≤ middle - first then
            displacements draws first (middle + 1) front value (drawn + 1) (generation + 1)
          else [] := ⟨_, rfl⟩
      have hlog : IsDisplacing left first (middle + 1) :=
        hleft ▸ IsDisplacing.cons hvalue0 (by omega) fun h =>
          displacements_isDisplacing draws _ _ _ _ le_rfl (by omega)
      have hcall := fillValues_eq h2 (by omega) hfront hfront0 hback hback0 hmiddle
        (f := displace cells drawn middle front back value) (by rw [hvalue])
      -- the first half
      obtain ⟨f, hfirst, hf⟩ := (IsDisplaced.single cells drawn middle front back value).half
        (p := 2 ≤ middle - first)
        (fun h => @ih _ first (middle + 1) front value (drawn + 1) (generation + 1)
          (by omega) (by omega)
          ((List.getElem?_set_ne (by omega)).trans hfront) hfront0
          (List.getElem?_set_self (by omega)) hvalue0)
        (Or.inl rfl) (Or.inr (Or.inr List.mem_cons_self))
      rw [List.singleton_append, ← hleft] at hf
      obtain ⟨x, hlast, hx0, hx⟩ := hlog.getElem?_last cells (show middle < _ by omega)
      rw [Nat.add_sub_cancel] at hlast hx
      -- the second half
      obtain ⟨g, hsecond, hg⟩ := hf.half (p := 2 ≤ last - middle)
        (fun h => @ih _ middle last x back f.drawn (generation + 1) (by omega) (by omega)
          (hf.values ▸ hx) hx0
          (by rw [hf.values, hlog.getElem?_outside cells (by omega)]; exact hback) hback0)
        (Or.inr (Or.inr (List.mem_map_of_mem (List.mem_of_getLast? hlast)))) (Or.inr (Or.inl rfl))
      rw [displacements_eq h2 hmiddle hvalue hleft (congrArg (Option.map Prod.snd) hlast),
        ← hf.drawn]
      exact ⟨g, (hcall.trans (congrArg (Option.bind · _) hfirst)).trans hsecond, hg⟩

/-! ### The ends of a range -/

section

variable {draws : ℕ → ℚ} {cells : List ℚ} {first last : ℕ} {front back : ℚ}

end

end TradingDesk.Simulator
