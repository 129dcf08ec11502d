import Mathlib.Order.Basic
import Mathlib.Data.List.Basic

/-!
# TradingDesk.Core.Climbs

**Values that never fall.** Every row gives a value to one key, and no level of a key is ever
lowered. Such lists of rows can be put one behind the other.
-/

namespace TradingDesk.Core

variable {R K V : Type*} [Preorder V] {key : R → K} {value : R → V}

/-- Rows that lead from levels to others, none of which is lower. -/
structure Climbs (key : R → K) (value : R → V) (levels : K → V) (rows : List R) (levels' : K → V) :
    Prop where
  le (k : K) : levels k ≤ levels' k
  above : ∀ r ∈ rows, levels (key r) ≤ value r
  below : ∀ r ∈ rows, value r ≤ levels' (key r)
  ordered : rows.Pairwise fun r r' => key r = key r' → value r ≤ value r'

variable {levels levels' levels'' : K → V} {rows rows' : List R}

theorem Climbs.nil (h : ∀ k, levels k ≤ levels' k) : Climbs key value levels [] levels' :=
  ⟨h, fun _ hr => absurd hr List.not_mem_nil, fun _ hr =>
    absurd hr List.not_mem_nil, List.Pairwise.nil⟩

theorem Climbs.singleton {r : R} (h : ∀ k, levels k ≤ levels' k) (habove : levels (key r) ≤ value r)
    (hbelow : value r ≤ levels' (key r)) : Climbs key value levels [r] levels' where
  le := h
  above := List.forall_mem_singleton.mpr habove
  below := List.forall_mem_singleton.mpr hbelow
  ordered := List.pairwise_singleton _ r

theorem Climbs.append (h : Climbs key value levels rows levels')
    (h' : Climbs key value levels' rows' levels'') :
    Climbs key value levels (rows ++ rows') levels'' where
  le k := (h.le k).trans (h'.le k)
  above := List.forall_mem_append.mpr ⟨h.above, fun r hr => (h.le _).trans (h'.above r hr)⟩
  below := List.forall_mem_append.mpr ⟨fun r hr => (h.below r hr).trans (h'.le _), h'.below⟩
  ordered := by
    refine List.pairwise_append.mpr ⟨h.ordered, h'.ordered, fun r hr r' hr' heq => ?_⟩
    exact (h.below r hr).trans (heq ▸ h'.above r' hr')

end TradingDesk.Core
