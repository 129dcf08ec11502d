import TradingDesk.Core.Traces
import TradingDesk.Exec.Commute

/-!
# TradingDesk.Exec.Reordering

**What the order of a log means.** A log says what happens to each order by the records that are
about it, in their order; how the records of different orders are interleaved says nothing. So
a log may be put together from several feeds in any way that keeps the history of every
reference, and the log of some orders may be replayed without the rest of it, as long as no
replacement leads from one of them to another order or back. That is said of logs that are
replayed to their end: where a table throws depends on all that was put into it.
-/

namespace TradingDesk.Exec

open TradingDesk.Core
open ExecutionEngine (replay replay? runOrder runOrder? run?_eq_some_iff)

variable {T F : Type} [UnorderedMap T UInt64 Order] [DoubleArith F]

/-- The records of a log that are about a reference, in their order. -/
def history {F : Type} (ref : UInt64) (log : List (OrderRecord F)) : List (OrderRecord F) :=
  log.filter fun r => decide (ref ∈ r.references)

omit [DoubleArith F] in
theorem OrderRecord.references_ne_nil (r : OrderRecord F) : r.references ≠ [] :=
  List.ne_nil_of_mem r.reference_mem_references

theorem missedOrders_of_answers_perm {e e' : ExecutionEngine T} {log log' : List (OrderRecord F)}
    (h : (IsLocal.answers runOrder e log).Perm (IsLocal.answers runOrder e' log')) :
    (outputs runOrder e log).count false = (outputs runOrder e' log').count false := by
  have houtputs : ∀ (e : ExecutionEngine T) (log : List (OrderRecord F)),
      (IsLocal.answers runOrder e log).map Prod.snd = outputs runOrder e log := by
    intro e log
    exact List.map_snd_zip (le_of_eq (IsLocal.length_outputs runOrder e log))
  rw [← houtputs, ← houtputs]
  exact (h.map Prod.snd).count_eq false

/-- **Only the histories matter.** Two logs in which every reference has the same history leave the
same orders, and so the same books, from any engine, if they are replayed to their end; as many
records are missed; and the records about a reference get the same answers. -/
theorem same_histories_same_books {e done done' : ExecutionEngine T}
    {log log' : List (OrderRecord F)} {answers answers' : List Bool}
    (h : ∀ ref, history ref log = history ref log')
    (hrun : run? runOrder? e log = some (answers, done))
    (hrun' : run? runOrder? e log' = some (answers', done')) :
    done.SameOrders done' ∧ (∀ s, done.book s = done'.book s) ∧
      answers.count false = answers'.count false ∧
      ∀ ref, (log.zip answers).filter (fun a => decide (ref ∈ a.1.references))
        = (log'.zip answers').filter fun a => decide (ref ∈ a.1.references) := by
  obtain ⟨-, hout⟩ := run?_eq_some_iff.mp hrun
  obtain ⟨-, hout'⟩ := run?_eq_some_iff.mp hrun'
  obtain ⟨rfl, rfl⟩ := Prod.mk.inj hout
  obtain ⟨rfl, rfl⟩ := Prod.mk.inj hout'
  obtain ⟨hget, hperm, hseen⟩ :=
    (runOrder_isLocal (T := T)).run_of_seenBy OrderRecord.references_ne_nil h e
  have hsame := sameOrders_of_locations hget
  refine ⟨hsame, fun s => ?_, missedOrders_of_answers_perm hperm, hseen⟩
  cases s with
  | buy => exact hsame.buyBook
  | sell => exact hsame.sellBook

/-- Two orders are entered, and shares taken from each; the feed interleaves them in two ways. -/
theorem interleavings_leave_same_books :
    let enter₁ : OrderRecord Rat := ⟨1, 0, 10, 1, 'A'.toUInt8, true⟩
    let cancel₁ : OrderRecord Rat := ⟨1, 0, 4, 0, 'X'.toUInt8, false⟩
    let enter₂ : OrderRecord Rat := ⟨2, 0, 20, 2, 'A'.toUInt8, true⟩
    let execute₂ : OrderRecord Rat := ⟨2, 0, 5, 0, 'E'.toUInt8, false⟩
    ∃ (answers answers' : List Bool) (e e' : ExecutionEngine (AssocList UInt64 Order)),
      replay? _ [enter₁, enter₂, cancel₁, execute₂] = some (answers, e) ∧
      replay? _ [enter₂, execute₂, enter₁, cancel₁] = some (answers', e') ∧
      ∀ s, e.book s = e'.book s := by
  intro enter₁ cancel₁ enter₂ execute₂
  have hrun := fun log : List (OrderRecord Rat) => run?_eq_some_iff.mpr
    ⟨ExecutionEngine.along_fits_assocList ExecutionEngine.empty log, rfl⟩
  have he₁ : enter₁.references = [1] := by decide +kernel
  have hc₁ : cancel₁.references = [1] := by decide +kernel
  have he₂ : enter₂.references = [2] := by decide +kernel
  have hx₂ : execute₂.references = [2] := by decide +kernel
  refine ⟨_, _, _, _, hrun _, hrun _,
    (same_histories_same_books (fun ref => ?_) (hrun _) (hrun _)).2.1⟩
  simp only [history, List.filter_cons, List.filter_nil, he₁, hc₁, he₂, hx₂, List.mem_singleton]
  by_cases href : ref = 1
  · subst href
    rfl
  · simp [href]

/-- **Some orders can be replayed without the others.** Where every record of a log is about chosen
references only, or about none of them, the records about chosen ones leave the same orders
under these, and get the same answers, as in the whole log, if both are replayed to their end. -/
theorem chosen_orders_replayed_alone {e done part : ExecutionEngine T} {chosen : UInt64 → Bool}
    {log : List (OrderRecord F)} {answers answers' : List Bool}
    (h : ∀ r ∈ log, (∀ ref ∈ r.references, chosen ref = true) ∨
      ∀ ref ∈ r.references, chosen ref = false)
    (hrun : run? runOrder? e log = some (answers, done))
    (hpart : run? runOrder? e (log.filter fun r => r.references.any chosen)
      = some (answers', part)) :
    (∀ s ref, chosen ref = true → part.resting s ref = done.resting s ref) ∧
      (log.filter fun r => r.references.any chosen).zip answers'
        = (log.zip answers).filter fun a => a.1.references.any chosen := by
  obtain ⟨-, hout⟩ := run?_eq_some_iff.mp hrun
  obtain ⟨-, hout'⟩ := run?_eq_some_iff.mp hpart
  obtain ⟨rfl, rfl⟩ := Prod.mk.inj hout
  obtain ⟨rfl, rfl⟩ := Prod.mk.inj hout'
  obtain ⟨hget, hanswers⟩ := (runOrder_isLocal (T := T)).run_part h fun _ _ => rfl
  exact ⟨fun s ref href => (congrFun (hget ref href) s).symm, hanswers.symm⟩

/-- The first of two orders, replayed without the second one. -/
theorem first_order_replayed_alone :
    let enter₁ : OrderRecord Rat := ⟨1, 0, 10, 1, 'A'.toUInt8, true⟩
    let cancel₁ : OrderRecord Rat := ⟨1, 0, 4, 0, 'X'.toUInt8, false⟩
    let enter₂ : OrderRecord Rat := ⟨2, 0, 20, 2, 'A'.toUInt8, true⟩
    let log := [enter₁, enter₂, cancel₁]
    let chosen : UInt64 → Bool := fun ref => ref == 1
    ∃ (answers answers' : List Bool) (e part : ExecutionEngine (AssocList UInt64 Order)),
      replay? _ log = some (answers, e) ∧
      replay? _ (log.filter fun r => r.references.any chosen) = some (answers', part) ∧
      ∀ s ref, chosen ref = true → part.resting s ref = e.resting s ref := by
  intro enter₁ cancel₁ enter₂ log chosen
  have hrun := fun log : List (OrderRecord Rat) => run?_eq_some_iff.mpr
    ⟨ExecutionEngine.along_fits_assocList ExecutionEngine.empty log, rfl⟩
  refine ⟨_, _, _, _, hrun _, hrun _, (chosen_orders_replayed_alone ?_ (hrun _) (hrun _)).1⟩
  refine List.forall_mem_cons.mpr ⟨Or.inl ?_, List.forall_mem_cons.mpr ⟨Or.inr ?_,
    List.forall_mem_singleton.mpr (Or.inl ?_)⟩⟩ <;>
    exact List.forall_mem_singleton.mpr rfl

end TradingDesk.Exec
