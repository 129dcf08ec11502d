import Mathlib.Order.Lattice

/-!
# TradingDesk.Core.Cells

**Ranges of cells.** A procedure that works on the cells from `first` up to `last` of a
list is described by two facts: the cells outside of the range are the same before and
after (`AgreeOutside`), and those inside are between two bounds (`Between`). The rules
here compose such facts when the procedure works on two ranges one after the other.

A procedure that fills the cells one after the other is described by `take`: the cells that
it has come to so far.
-/

namespace TradingDesk.Core

variable {α : Type*}

/-- `resize` of a vector: cut off, or filled up. -/
def resize (fill : α) (cells : List α) (n : Nat) : List α :=
  cells.take n ++ List.replicate (n - cells.length) fill

@[simp] theorem length_resize (fill : α) (cells : List α) (n : Nat) :
    (resize fill cells n).length = n := by
  rw [resize, List.length_append, List.length_take, List.length_replicate]
  omega

/-- The next cell is filled. -/
theorem take_add_one_set {cells : List α} {i : Nat} (h : i < cells.length) (x : α) :
    (cells.set i x).take (i + 1) = cells.take i ++ [x] := by
  rw [List.take_add_one, List.getElem?_set_self h, List.take_set_of_le (Nat.le_refl i)]
  rfl

/-- Lists of one length with the same cells outside of a range. -/
structure AgreeOutside (cells cells' : List α) (first last : Nat) : Prop where
  length_eq : cells'.length = cells.length
  getElem?_eq : ∀ i, i < first ∨ last ≤ i → cells'[i]? = cells[i]?

namespace AgreeOutside

variable {cells cells' cells'' : List α} {first last first' last' : Nat}

theorem set {i : Nat} (h : first ≤ i ∧ i < last) (x : α) :
    AgreeOutside cells (cells.set i x) first last := by
  refine ⟨List.length_set, fun j hj => List.getElem?_set_ne ?_⟩
  omega

/-- Agreement outside of a range is agreement outside of a larger one. -/
theorem mono (h : AgreeOutside cells cells' first last) (hfirst : first' ≤ first)
    (hlast : last ≤ last') : AgreeOutside cells cells' first' last' :=
  ⟨h.length_eq, fun i hi => h.getElem?_eq i (by omega)⟩

theorem trans (h : AgreeOutside cells cells' first last)
    (h' : AgreeOutside cells' cells'' first last) : AgreeOutside cells cells'' first last :=
  ⟨h'.length_eq.trans h.length_eq, fun i hi => (h'.getElem?_eq i hi).trans (h.getElem?_eq i hi)⟩

end AgreeOutside

/-- The cells of a range are there, and their values are between two bounds. -/
def Between [LE α] (cells : List α) (first last : Nat) (lo hi : α) : Prop :=
  ∀ i, first ≤ i → i < last → ∃ x, cells[i]? = some x ∧ lo ≤ x ∧ x ≤ hi

namespace Between

variable {cells cells' : List α} {first mid last : Nat} {lo hi lo' hi' : α}

section

variable [LE α]

theorem single {i : Nat} {x : α} (h : cells[i]? = some x) (hlo : lo ≤ x) (hhi : x ≤ hi) :
    Between cells i (i + 1) lo hi := by
  intro j hij hj
  obtain rfl : j = i := by omega
  exact ⟨x, h, hlo, hhi⟩

/-- Two ranges that meet. -/
theorem append (h : Between cells first mid lo hi) (h' : Between cells mid last lo hi) :
    Between cells first last lo hi := by
  intro i hfirst hlast
  rcases Nat.lt_or_ge i mid with hi | hi
  · exact h i hfirst hi
  · exact h' i hi hlast

theorem of_le {first' last' : Nat} (h : Between cells first last lo hi) (hfirst : first ≤ first')
    (hlast : last' ≤ last) : Between cells first' last' lo hi :=
  fun i hi hi' => h i (hfirst.trans hi) (hi'.trans_le hlast)

/-- Work on a later range leaves the cells in front of it alone. -/
theorem before {first' last' : Nat} (h : Between cells first last lo hi)
    (hagree : AgreeOutside cells cells' first' last') (hle : last ≤ first') :
    Between cells' first last lo hi := by
  intro i hfirst hlast
  rw [hagree.getElem?_eq i (Or.inl (hlast.trans_le hle))]
  exact h i hfirst hlast

end

/-- Weaker bounds. -/
theorem weaken [Preorder α] (h : Between cells first last lo hi) (hlo : lo' ≤ lo) (hhi : hi ≤ hi') :
    Between cells first last lo' hi' := by
  intro i hfirst hlast
  obtain ⟨x, hx, hlox, hxhi⟩ := h i hfirst hlast
  exact ⟨x, hx, hlo.trans hlox, hxhi.trans hhi⟩

end Between

end TradingDesk.Core
