import TradingDesk.Core.Local
import TradingDesk.Exec.Checkpoint

/-!
# TradingDesk.Exec.Commute

**Records about different orders commute.** Of everything that rests a record looks at
its own reference, and a replacement at the new one too; nothing else is read or
written, on either side. So the engine's step is local, and it does not matter in which
order records with the same timestamp are replayed, as long as they are about different
references. Which references a table still takes is no matter of one reference, though:
`records_commute_iff` asks that both orders are run without an exception.
-/

namespace TradingDesk.Exec

open TradingDesk.Core

/-- The references that a record is about. -/
def OrderRecord.references {F : Type} (r : OrderRecord F) : List UInt64 :=
  match r.action with
  | .replace => [r.reference, r.newReference]
  | _ => [r.reference]

theorem OrderRecord.reference_mem_references {F : Type} (r : OrderRecord F) :
    r.reference ∈ r.references := by
  unfold references
  split <;> exact List.mem_cons_self

theorem OrderRecord.newReference_mem_references {F : Type} {r : OrderRecord F}
    (h : r.action = .replace) : r.newReference ∈ r.references := by
  rw [references, h]
  exact List.mem_cons_of_mem _ (List.mem_singleton_self _)

namespace Resting

/-- Under these references the same orders rest. -/
def AgreeOn (refs : List UInt64) (b c : Resting) : Prop := ∀ ref ∈ refs, ∀ s, b s ref = c s ref

section

variable {refs : List UInt64} {b c : Resting}

theorem AgreeOn.hit (h : AgreeOn refs b c) {ref : UInt64} (href : ref ∈ refs) :
    b.hit ref = c.hit ref := by
  rw [Resting.hit, Resting.hit, h ref href .buy, h ref href .sell]

theorem AgreeOn.set (h : AgreeOn refs b c) (s : Side) (ref : UInt64) (o : Option Order) :
    AgreeOn refs (b.set s ref o) (c.set s ref o) := by
  intro ref' href' s'
  rw [set_apply, set_apply, h ref' href' s']

theorem AgreeOn.add (h : AgreeOn refs b c) (s : Side)
    {ref : UInt64} (href : ref ∈ refs) (o : Order) :
    AgreeOn refs (b.add s ref o) (c.add s ref o) := by
  rw [Resting.add, Resting.add, h ref href s]
  exact h.set s ref _

end

variable {F : Type} [DoubleArith F]

/-- **Frame.** References that a record is not about keep what rests under them. -/
theorem step_of_notMem (b : Resting) {r : OrderRecord F} {ref : UInt64} (h : ref ∉ r.references)
    (s : Side) : (b.step r).2 s ref = b s ref := by
  have hne : ref ≠ r.reference := fun hc => h (hc ▸ r.reference_mem_references)
  have heff := b.step_effect r
  generalize b.step r = out at heff
  cases heff with
  | add hr => exact set_of_ne b _ hne
  | reduce hr hhit => exact set_of_ne b _ hne
  | delete hr hhit => exact set_of_ne b _ hne
  | replace hr hhit =>
      have hnew : ref ≠ r.newReference := fun hc => h (hc ▸ r.newReference_mem_references hr)
      exact (set_of_ne _ _ hnew).trans (set_of_ne b _ hne)
  | miss hr hmiss => rfl

/-- **What a record does depends on its references only**, the answer included. -/
theorem AgreeOn.step {b c : Resting} {r : OrderRecord F} (h : AgreeOn r.references b c) :
    (b.step r).1 = (c.step r).1 ∧ AgreeOn r.references (b.step r).2 (c.step r).2 := by
  have href := r.reference_mem_references
  unfold Resting.step
  rw [← h.hit href]
  cases hr : r.action with
  | add => exact ⟨rfl, h.add r.side href r.order⟩
  | unknown => exact ⟨rfl, h⟩
  | reduce | delete | replace =>
      cases b.hit r.reference with
      | none => exact ⟨rfl, h⟩
      | some hit =>
          first
            | exact ⟨rfl, h.set hit.1 r.reference _⟩
            | exact ⟨rfl, (h.set hit.1 r.reference none).add hit.1
                (r.newReference_mem_references hr) r.order⟩

end Resting

variable {T F : Type} [UnorderedMap T UInt64 Order] [DoubleArith F]

open ExecutionEngine (replay runOrder runOrder? Fits)

/-- A record reads and writes an engine under its references only. -/
theorem runOrder_isLocal :
    IsLocal (fun (e : ExecutionEngine T) ref s => e.resting s ref) (runOrder (F := F))
      OrderRecord.references := by
  have hagree : ∀ {e e' : ExecutionEngine T} {r : OrderRecord F},
      (∀ ref ∈ r.references, (fun s => e.resting s ref) = fun s => e'.resting s ref) →
        Resting.AgreeOn r.references e.resting e'.resting :=
    fun h ref href s => congrFun (h ref href) s
  refine ⟨?_, ?_, ?_⟩
  · intro e r ref href
    funext s
    rw [ExecutionEngine.resting_runOrder]
    exact Resting.step_of_notMem _ href s
  · intro e e' r h
    rw [ExecutionEngine.runOrder_fst, ExecutionEngine.runOrder_fst]
    exact (hagree h).step.1
  · intro e e' r h ref href
    funext s
    rw [ExecutionEngine.resting_runOrder, ExecutionEngine.resting_runOrder]
    exact (hagree h).step.2 ref href s

theorem sameOrders_of_locations {e e' : ExecutionEngine T}
    (h : (fun ref s => e.resting s ref) = fun ref s => e'.resting s ref) : e.SameOrders e' := by
  rw [ExecutionEngine.sameOrders_iff]
  funext s ref
  exact congrFun (congrFun h ref) s

/-- Of a run without an exception the order of the records of a block is no matter. -/
theorem runs_commute (e : ExecutionEngine T) {block block' : List (OrderRecord F)}
    (post : List (OrderRecord F)) (hp : block.Perm block')
    (hd : block.Pairwise fun r r' => r.references.Disjoint r'.references) :
    (run runOrder e (block ++ post)).SameOrders (run runOrder e (block' ++ post)) ∧
      (IsLocal.answers runOrder e (block ++ post)).Perm
        (IsLocal.answers runOrder e (block' ++ post)) := by
  obtain ⟨hget, hans⟩ := runOrder_isLocal.run_perm_append hp hd e post
  exact ⟨sameOrders_of_locations hget, hans⟩

/-- Both runs are to their end, leave the same orders, and give each record the same answer. -/
def RunAlike (e : ExecutionEngine T) (records records' : List (OrderRecord F)) : Prop :=
  ∃ (answers answers' : List Bool) (done done' : ExecutionEngine T),
    run? runOrder? e records = some (answers, done) ∧
    run? runOrder? e records' = some (answers', done') ∧
    done.SameOrders done' ∧ (records.zip answers).Perm (records'.zip answers')

/-- Two records, one after the other: either order leaves the same orders, and gives the one
`answer` and the other `answer'`. -/
def Commute (e : ExecutionEngine T) (r r' : OrderRecord F) : Prop :=
  ∃ (answer answer' : Bool) (done done' : ExecutionEngine T),
    run? runOrder? e [r, r'] = some ([answer, answer'], done) ∧
    run? runOrder? e [r', r] = some ([answer', answer], done') ∧ done.SameOrders done'

/-- **Where records about different orders commute.** In any engine, two records with disjoint
references leave the same orders and get the same answers in either order if and only if no
insertion throws in either one; and so do the records of a block with pairwise disjoint references
in any two orders of them, whatever is replayed after the block. -/
theorem records_commute_iff (e : ExecutionEngine T) :
    (∀ r r' : OrderRecord F, r.references.Disjoint r'.references →
      (Commute e r r' ↔ Along runOrder Fits e [r, r'] ∧ Along runOrder Fits e [r', r])) ∧
      ∀ block block' post : List (OrderRecord F), block.Perm block' →
        block.Pairwise (fun r r' => r.references.Disjoint r'.references) →
        (RunAlike e (block ++ post) (block' ++ post) ↔
          Along runOrder Fits e (block ++ post) ∧ Along runOrder Fits e (block' ++ post)) := by
  constructor
  · intro r r' hd
    constructor
    · rintro ⟨answer, answer', done, done', hrun, hrun', -⟩
      exact ⟨(ExecutionEngine.run?_eq_some_iff.mp hrun).1,
        (ExecutionEngine.run?_eq_some_iff.mp hrun').1⟩
    · rintro ⟨hfits, hfits'⟩
      refine ⟨(e.runOrder r).1, (e.runOrder r').1, _, _,
        ExecutionEngine.run?_eq_some_iff.mpr ⟨hfits, Prod.ext ?_ rfl⟩,
        ExecutionEngine.run?_eq_some_iff.mpr ⟨hfits', Prod.ext ?_ rfl⟩,
        sameOrders_of_locations (runOrder_isLocal.get_comm hd e)⟩
      · rw [outputs_cons, outputs_cons, runOrder_isLocal.output_after hd]
        rfl
      · rw [outputs_cons, outputs_cons, runOrder_isLocal.output_after hd.symm]
        rfl
  · intro block block' post hp hd
    constructor
    · rintro ⟨answers, answers', done, done', hrun, hrun', -⟩
      exact ⟨(ExecutionEngine.run?_eq_some_iff.mp hrun).1,
        (ExecutionEngine.run?_eq_some_iff.mp hrun').1⟩
    · rintro ⟨hfits, hfits'⟩
      obtain ⟨hsame, hanswers⟩ := runs_commute e post hp hd
      exact ⟨_, _, _, _, ExecutionEngine.run?_eq_some_iff.mpr ⟨hfits, rfl⟩,
        ExecutionEngine.run?_eq_some_iff.mpr ⟨hfits', rfl⟩, hsame, hanswers⟩

/-- 126 of the crowd are at rest. -/
def nearlyFull : ExecutionEngine (RobinHood.Table Order) :=
  run runOrder ExecutionEngine.empty ((RobinHood.crowd.take 126).map RobinHood.buyAdd)

/-- The addition of the 127th. -/
def lastTaken : OrderRecord Rat := RobinHood.buyAdd (RobinHood.crowded 125)

set_option maxRecDepth 100000 in
/-- Behind it the table takes no other reference. In front of it, it does. -/
theorem lastTaken_shuts_the_table :
    nearlyFull.Fits lastTaken ∧ ¬ (nearlyFull.runOrder lastTaken).2.Fits (RobinHood.buyAdd 1) ∧
      nearlyFull.Fits (RobinHood.buyAdd 1) ∧
      (nearlyFull.runOrder (RobinHood.buyAdd 1)).2.Fits lastTaken := by
  decide +kernel

/-- So the two additions do not commute, though they are about different orders. -/
theorem additions_do_not_commute :
    lastTaken.references.Disjoint (RobinHood.buyAdd 1).references ∧
      run? runOrder? nearlyFull [lastTaken, RobinHood.buyAdd 1] = none ∧
      (∃ out, run? runOrder? nearlyFull [RobinHood.buyAdd 1, lastTaken] = some out) ∧
      ¬ Commute nearlyFull lastTaken (RobinHood.buyAdd 1) := by
  obtain ⟨-, hshut, hone, hother⟩ := lastTaken_shuts_the_table
  have hnone : run? runOrder? nearlyFull [lastTaken, RobinHood.buyAdd 1] = none := by
    rw [Option.eq_none_iff_forall_ne_some]
    intro out hrun
    exact hshut (ExecutionEngine.run?_eq_some_iff.mp hrun).1.2.1
  refine ⟨fun ref hlast => ?_, hnone,
    ⟨_, ExecutionEngine.run?_eq_some_iff.mpr ⟨⟨hone, hother, trivial⟩, rfl⟩⟩, ?_⟩
  · obtain rfl := List.mem_singleton.mp hlast
    decide +kernel
  · rintro ⟨answer, answer', done, done', hrun, -⟩
    rw [hnone] at hrun
    cases hrun

/-- A cancel of one order and the replacement of another. -/
theorem cancel_and_replacement_commute :
    let e := replay (AssocList UInt64 Order)
      [(⟨1, 0, 10, 1, 'A'.toUInt8, true⟩ : OrderRecord Rat), ⟨2, 0, 20, 2, 'A'.toUInt8, false⟩]
    let cancel : OrderRecord Rat := ⟨1, 0, 4, 0, 'X'.toUInt8, false⟩
    let replacement : OrderRecord Rat := ⟨2, 3, 5, 3, 'U'.toUInt8, false⟩
    Commute e cancel replacement ∧ RunAlike e [cancel, replacement] [replacement, cancel] := by
  intro e cancel replacement
  have hd : cancel.references.Disjoint replacement.references := by
    intro ref hcancel
    obtain rfl := List.mem_singleton.mp hcancel
    decide +kernel
  have hfits := ExecutionEngine.along_fits_assocList e [cancel, replacement]
  have hfits' := ExecutionEngine.along_fits_assocList e [replacement, cancel]
  have hblock : [cancel, replacement].Pairwise fun r r' => r.references.Disjoint r'.references :=
    List.pairwise_pair.mpr hd
  exact ⟨((records_commute_iff e).1 cancel replacement hd).mpr ⟨hfits, hfits'⟩,
    ((records_commute_iff e).2 _ _ [] (List.Perm.swap _ _ _) hblock).mpr ⟨hfits, hfits'⟩⟩

end TradingDesk.Exec
