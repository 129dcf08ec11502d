import Mathlib.Data.List.Perm.Subperm
import TradingDesk.Exec.Checkpoint

/-!
# TradingDesk.Exec.Capacity

**An engine holds no more orders than it was given records.** A record puts at most
one reference into the tables, so a replay of `n` records leaves at most `n` orders on
each side, and the state of any replay that fits into memory can be encoded.
-/

namespace TradingDesk.Exec

open TradingDesk.Core
open UnorderedMap (find? size toList)

/-- The reference under which a record's order comes to rest. -/
def OrderRecord.introduced {F : Type} (r : OrderRecord F) : UInt64 :=
  if r.action = .replace then r.newReference else r.reference

namespace Resting

variable {F : Type} [DoubleArith F]

theorem isSome_add {b : Resting} {s s' : Side} {ref ref' : UInt64} {o : Order}
    (h : (b.add s ref o s' ref').isSome) : (b s' ref').isSome ∨ ref' = ref := by
  rw [add, set_apply] at h
  split at h
  · exact Or.inr (by rename_i hc; exact hc.2)
  · exact Or.inl h

/-- **Step lemma.** Only the introduced reference can be new. -/
theorem isSome_step {b : Resting} {r : OrderRecord F} {s : Side} {ref : UInt64}
    (h : ((b.step r).2 s ref).isSome) : (b s ref).isSome ∨ ref = r.introduced := by
  have heffect := step_effect b r
  generalize b.step r = result at h heffect
  cases heffect with
  | add hr =>
      rcases isSome_add h with hb | rfl
      · exact Or.inl hb
      · exact Or.inr (by rw [OrderRecord.introduced, if_neg (by simp [hr])])
  | @reduce s' o hr hhit =>
      -- what is left of the order that was hit was there before
      by_cases hat : s = s' ∧ ref = r.reference
      · obtain ⟨rfl, rfl⟩ := hat
        exact Or.inl (by rw [eq_some_of_hit hhit]; rfl)
      · change (b.set s' r.reference _ s ref).isSome at h
        rw [set_apply, if_neg hat] at h
        exact Or.inl h
  | @delete s' o hr hhit =>
      change (b.set s' r.reference none s ref).isSome at h
      rw [set_apply] at h
      split at h
      · cases h
      · exact Or.inl h
  | replace hr hhit =>
      rcases isSome_add h with hb | rfl
      · rw [set_apply] at hb
        split at hb
        · cases hb
        · exact Or.inl hb
      · exact Or.inr (by rw [OrderRecord.introduced, if_pos hr])
  | miss _ _ => exact Or.inl h

/-- **Run lemma.** -/
theorem isSome_run {b : Resting} {records : List (OrderRecord F)} {s : Side} {ref : UInt64}
    (h : (run step b records s ref).isSome) :
    (b s ref).isSome ∨ ref ∈ records.map OrderRecord.introduced := by
  induction records generalizing b with
  | nil => exact Or.inl h
  | cons r records ih =>
      rw [run_cons] at h
      rw [List.map_cons, List.mem_cons]
      rcases ih h with hstep | hmem
      · rcases isSome_step hstep with hb | heq
        · exact Or.inl hb
        · exact Or.inr (Or.inl heq)
      · exact Or.inr (Or.inr hmem)

end Resting

variable {T F : Type} [UnorderedMap T UInt64 Order] [DoubleArith F]

/-- A table is no larger than a list with all of its keys. -/
theorem size_le_of_keys {m : T} {keys : List UInt64} (h : ∀ k, (find? m k).isSome → k ∈ keys) :
    size m ≤ keys.length := by
  have hsub : (toList m).map Prod.fst ⊆ keys := by
    intro k hk
    obtain ⟨⟨_, v⟩, hmem, rfl⟩ := List.mem_map.mp hk
    refine h _ ?_
    rw [(UnorderedMap.mem_toList m _ v).mp hmem]
    rfl
  have hlen := (List.Nodup.subperm (UnorderedMap.nodup_keys m) hsub).length_le
  rw [List.length_map] at hlen
  rwa [UnorderedMap.size_eq]

/-- **Capacity.** An engine with the orders of a replay can be encoded, unless there are
2^58 records. -/
theorem ExecutionEngine.SameOrders.fitsSizeT {e : ExecutionEngine T}
    {records : List (OrderRecord F)}
    (h : e.SameOrders (replay T records)) (hlen : records.length < 2 ^ 58) : e.FitsSizeT := by
  have hside : ∀ s, size (e.side s) ≤ records.length := by
    intro s
    have hkeys : ∀ ref, (find? (e.side s) ref).isSome →
        ref ∈ records.map OrderRecord.introduced := by
      intro ref href
      have hresting : (run Resting.step Resting.empty records s ref).isSome := by
        rw [← resting_replay (T := T), ← sameOrders_iff.mp h]
        exact href
      rcases Resting.isSome_run hresting with hnone | hmem
      · cases hnone
      · exact hmem
    simpa using size_le_of_keys hkeys
  have hbuy : size e.allBuyOrders ≤ records.length := hside .buy
  have hsell : size e.allSellOrders ≤ records.length := hside .sell
  unfold FitsSizeT
  omega

end TradingDesk.Exec
