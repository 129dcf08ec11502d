import TradingDesk.Exec.Book
import TradingDesk.Exec.RoundTrip

/-!
# TradingDesk.Exec.Checkpoint

**Checkpoints are transparent.** A restored engine holds the orders of the engine
that was saved, in tables with another history. `run_order` and the book builders
cannot tell: `sameOrders_simulates` says so for one record, and so for every run. What the history
of a table does decide is which references it still takes; `checkpoint_transparent_iff` has
that on the other side.
-/

namespace TradingDesk.Exec

open TradingDesk.Core
open UnorderedMap (find?)

variable {T F : Type} [UnorderedMap T UInt64 Order] [DoubleArith F]

namespace ExecutionEngine

theorem sameOrders_iff {e e' : ExecutionEngine T} : e.SameOrders e' ↔ e.resting = e'.resting := by
  constructor
  · intro hsame
    obtain ⟨hbuy, hsell⟩ := hsame
    funext s
    cases s with
    | buy => exact hbuy
    | sell => exact hsell
  · intro h
    exact ⟨congrFun h .buy, congrFun h .sell⟩

/-- **Step lemma.** Engines with the same orders answer a record alike and have the
same orders afterwards. -/
theorem sameOrders_simulates :
    Simulates (runOrder (T := T) (F := F)) runOrder (SameOrders (T := T)) where
  output h r := by
    rw [runOrder_fst, runOrder_fst, sameOrders_iff.mp h]
  next h r := by
    rw [sameOrders_iff, resting_runOrder, resting_runOrder, sameOrders_iff.mp h]

theorem SameOrders.buyBook {e e' : ExecutionEngine T} (h : e.SameOrders e') :
    e.buyBook = e'.buyBook := makeBook_congr h.1

theorem SameOrders.sellBook {e e' : ExecutionEngine T} (h : e.SameOrders e') :
    e.sellBook = e'.sellBook := makeBook_congr h.2

end ExecutionEngine

open ExecutionEngine (replay replay? runOrder runOrder?)

/-- The engine that a state is restored in: a fresh one that has read the state's bytes. -/
def ExecutionEngine.restored (e : ExecutionEngine T) : ExecutionEngine T :=
  (ExecutionEngine.empty : ExecutionEngine T).refilled .little e

/-- One engine runs `r₁` and then `r₂`. Another one runs `r₁` and is saved, a fresh one on the same
little-endian host reads its bytes and runs `r₂`. All of this goes without an exception, the
records get the same answers, and the two end with the same books and the same collapsed books. -/
def CheckpointTransparent (T : Type) [UnorderedMap T UInt64 Order] (r₁ r₂ : List (OrderRecord F))
    (mem : Memory) : Prop :=
  ∃ (answers₁ answers₂ : List Bool) (saved restored e e' : ExecutionEngine T) (p : Cursor),
    replay? T r₁ = some (answers₁, saved) ∧
    replay? T (r₁ ++ r₂) = some (answers₁ ++ answers₂, e) ∧
    (ExecutionEngine.empty : ExecutionEngine T).deserializeState .little mem
      (.start (saved.serializeState .little).length) = (some true, p, restored) ∧
    run? runOrder? restored r₂ = some (answers₂, e') ∧
    e'.buyBook = e.buyBook ∧ e'.sellBook = e.sellBook ∧
    collapseBook e'.buyBook = collapseBook e.buyBook ∧
    collapseBook e'.sellBook = collapseBook e.sellBook

/-- **Where checkpointing is transparent.** If and only if no insertion throws: of the one run, of
the reader of the saved state, and of the run in the engine it is restored in. -/
theorem checkpoint_transparent_iff (r₁ r₂ : List (OrderRecord F))
    (hfit : (replay T r₁).FitsSizeT) {mem : Memory}
    (hmem : mem.bytes 0 ((replay T r₁).serializeState .little).length
      = (replay T r₁).serializeState .little) :
    CheckpointTransparent T r₁ r₂ mem ↔
      Along runOrder ExecutionEngine.Fits (ExecutionEngine.empty : ExecutionEngine T) (r₁ ++ r₂) ∧
        (ExecutionEngine.empty : ExecutionEngine T).Takes .little (replay T r₁) ∧
        Along runOrder ExecutionEngine.Fits (replay T r₁).restored r₂ := by
  constructor
  · rintro ⟨answers₁, answers₂, saved, restored, e, e', p, hsaved, hone, hread, hother, -⟩
    rw [replay?, ExecutionEngine.run?_eq_some_iff] at hsaved hone
    obtain rfl : replay T r₁ = saved := congrArg Prod.snd hsaved.2
    have htakes := ExecutionEngine.takes_of_deserializeState hfit (readsBack_little _)
      (readsBack_little _) hmem le_rfl hread
    have hfilled := (ExecutionEngine.deserializeState_serializeState hfit
      (p := .start ((replay T r₁).serializeState .little).length) hmem le_rfl htakes).1
    rw [hread] at hfilled
    obtain rfl : restored = (replay T r₁).restored := congrArg (·.2.2) hfilled
    exact ⟨hone.1, htakes, (ExecutionEngine.run?_eq_some_iff.mp hother).1⟩
  · rintro ⟨hone, htakes, hother⟩
    obtain ⟨hread, hsame⟩ := ExecutionEngine.deserializeState_serializeState hfit
      (p := .start ((replay T r₁).serializeState .little).length) hmem le_rfl htakes
    -- from here on only the orders count, not the tables that hold them
    have hrun : (run runOrder (replay T r₁).restored r₂).SameOrders (replay T (r₁ ++ r₂)) := by
      rw [show replay T (r₁ ++ r₂) = run runOrder (replay T r₁) r₂ from run_append _ _ _]
      exact ExecutionEngine.sameOrders_simulates.run hsame r₂
    have hanswers : outputs runOrder (ExecutionEngine.empty : ExecutionEngine T) (r₁ ++ r₂)
        = outputs runOrder (ExecutionEngine.empty : ExecutionEngine T) r₁
          ++ outputs runOrder (replay T r₁).restored r₂ :=
      (outputs_append _ _ _).trans
        (congrArg _ (ExecutionEngine.sameOrders_simulates.outputs hsame r₂).symm)
    refine ⟨_, _, replay T r₁, _, _, _, _,
      ExecutionEngine.run?_eq_some_iff.mpr ⟨hone.of_append, rfl⟩,
      ExecutionEngine.run?_eq_some_iff.mpr ⟨hone, Prod.ext hanswers rfl⟩, hread,
      ExecutionEngine.run?_eq_some_iff.mpr ⟨hother, rfl⟩, hrun.buyBook, hrun.sellBook, ?_, ?_⟩
    · exact congrArg collapseBook hrun.buyBook
    · exact congrArg collapseBook hrun.sellBook

set_option maxRecDepth 100000 in
/-- **A table that takes nothing more.** Behind the thinned run the engine throws at any addition.
The one that it is restored in has a smaller table with other info bytes, and goes on. -/
theorem restored_engine_goes_on :
    let saved := replay (RobinHood.Table Order) RobinHood.thinnedRun
    (saved.runOrder? (RobinHood.buyAdd 1)).isNone ∧
      (saved.restored.runOrder? (RobinHood.buyAdd 1)).isSome := by
  decide +kernel

/-- So the two runs are told apart. -/
theorem thinned_run_not_transparent :
    ¬ CheckpointTransparent (RobinHood.Table Order) RobinHood.thinnedRun [RobinHood.buyAdd 1]
      (.ofList
        ((replay (RobinHood.Table Order) RobinHood.thinnedRun).serializeState .little) 0) := by
  rintro ⟨answers₁, answers₂, saved, restored, e, e', p, hsaved, hone, -⟩
  have hfits := (ExecutionEngine.run?_eq_some_iff.mp hone).1.at_append
  have hthrows := restored_engine_goes_on.1
  rw [replay, ExecutionEngine.runOrder?_of_fits hfits] at hthrows
  cases hthrows

/-- A save between the addition of an order and an execution of half of it. -/
theorem sample_checkpoint_transparent :
    let add : OrderRecord Rat := ⟨1, 0, 10, 1, 'A'.toUInt8, true⟩
    let execute : OrderRecord Rat := ⟨1, 0, 5, 0, 'E'.toUInt8, false⟩
    CheckpointTransparent (AssocList UInt64 Order) [add] [execute]
      (.ofList ((replay (AssocList UInt64 Order) [add]).serializeState .little) 0) := by
  intro add execute
  have hfit : (replay (AssocList UInt64 Order) [add]).FitsSizeT := by
    unfold ExecutionEngine.FitsSizeT
    decide +kernel
  exact (checkpoint_transparent_iff [add] [execute] hfit (Memory.bytes_ofList_zero _ 0)).mpr
    ⟨ExecutionEngine.along_fits_assocList _ _, takes_assocList .little _ _,
      ExecutionEngine.along_fits_assocList _ _⟩

end TradingDesk.Exec
