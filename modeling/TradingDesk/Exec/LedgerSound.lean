import Mathlib.Data.List.Induction
import TradingDesk.Exec.Ledger
import TradingDesk.Exec.RobinHood

/-!
# TradingDesk.Exec.LedgerSound

**The engine implements the ledger.** `AgreesWith` relates the orders at rest to
the live orders of the history so far. On a well-formed history every record
preserves it (`AgreesWith.step`, one case for each group of record types), so it
holds after every run, and the refinement of `TradingDesk.Exec.Resting` carries it
to the engine, as far as its tables take the orders.
-/

namespace TradingDesk.Exec

open TradingDesk.Core
open ExecutionEngine (convertToFix replay replay? runOrder Fits runOrder_fst resting_runOrder
  resting_replay)

variable {F : Type} [DoubleArith F]

/-- The orders at rest are the live ones, and none rests on both sides. -/
structure AgreesWith (b : Resting) (h : List (OrderRecord F)) : Prop where
  /-- What rests is live, and the other way round. -/
  live : ∀ ref s o, b s ref = some o ↔ Live h ref s o.price o.shares.toNat
  /-- A reference rests on one side at most. -/
  oneSide : ∀ ref s s' o o', b s ref = some o → b s' ref = some o' → s = s'

namespace AgreesWith

variable {b : Resting} {h : List (OrderRecord F)} {r : OrderRecord F}

theorem nil : AgreesWith Resting.empty ([] : List (OrderRecord F)) where
  live _ _ _ := ⟨fun ho => by simp [Resting.empty] at ho, fun hl => absurd hl not_live_nil⟩
  oneSide _ _ _ _ _ ho := by simp [Resting.empty] at ho

/-- The ledger's share count is the one of an order at rest. -/
theorem eq_some_of_live (hb : AgreesWith b h) {ref : UInt64} {s : Side} {p : UInt32} {n : Nat}
    (hl : Live h ref s p n) : ∃ o, b s ref = some o ∧ o.price = p ∧ o.shares.toNat = n := by
  have hn : n < 2 ^ 32 := by
    cases hl with
    | @add _ _ r _ _ hst =>
        have := hst.shares
        have := r.shares.toNat_lt
        omega
    | @replace _ _ r _ _ _ _ _ _ hst =>
        have := hst.shares
        have := r.shares.toNat_lt
        omega
  have hto : (UInt32.ofNat n).toNat = n := UInt32.toNat_ofNat_of_lt' hn
  exact ⟨⟨p, UInt32.ofNat n⟩, (hb.live _ _ _).mpr (by rwa [hto]), rfl, hto⟩

theorem eq_none_of_fresh (hb : AgreesWith b h) {ref : UInt64} (hnew : ref ∉ introduced h)
    (s : Side) : b s ref = none := by
  cases hs : b s ref with
  | none => rfl
  | some o => exact absurd ((hb.live ref s o).mp hs).mem_introduced hnew

/-- A lookup misses exactly the references that are not live. -/
theorem hit_eq_none_iff (hb : AgreesWith b h) (ref : UInt64) :
    b.hit ref = none ↔ ¬ ∃ s p n, Live h ref s p n := by
  rw [Resting.hit_eq_none]
  constructor
  · rintro hnone ⟨s, p, n, hl⟩
    obtain ⟨o, ho, -⟩ := hb.eq_some_of_live hl
    rw [hnone s] at ho
    cases ho
  · intro hnot s
    cases hs : b s ref with
    | none => rfl
    | some o => exact absurd ⟨s, _, _, (hb.live ref s o).mp hs⟩ hnot

/-! ### One record, by groups of record types -/

theorem eq_order_iff (o : Order) :
    o = r.order ↔ o.price = convertToFix r.price ∧ o.shares.toNat = r.shares.toNat := by
  obtain ⟨p, k⟩ := o
  simp [OrderRecord.order, UInt32.toNat_inj]

/-- Introducing an order under a reference that rests nowhere keeps references to
one side. -/
theorem oneSide_set {b : Resting}
    (hone : ∀ ref s s' o o', b s ref = some o → b s' ref = some o' → s = s') {s₀ : Side}
    {ref₀ : UInt64} {o₀ : Order} (hnone : ∀ s, b s ref₀ = none) (ref : UInt64) (s s' : Side)
    (o o' : Order) (h : b.set s₀ ref₀ (some o₀) s ref = some o)
    (h' : b.set s₀ ref₀ (some o₀) s' ref = some o') : s = s' := by
  rw [Resting.set_some_eq_some hnone] at h h'
  rcases h with ⟨href, hs, -⟩ | h
  · rcases h' with ⟨-, hs', -⟩ | h'
    · rw [hs, hs']
    · simp [href, hnone] at h'
  · rcases h' with ⟨href, -, -⟩ | h'
    · simp [href, hnone] at h
    · exact hone ref s s' o o' h h'

theorem step_add (hb : AgreesWith b h) (hw : WellFormedFeed (h ++ [r])) (hr : r.action = .add) :
    AgreesWith (b.add r.side r.reference r.order) (h ++ [r]) := by
  have hin : r.reference ∈ r.introduces := by simp [OrderRecord.introduces, hr]
  have hnone := hb.eq_none_of_fresh (hw.fresh hin)
  have hpos : 0 < r.shares.toNat := hw.sharesPos r (by simp) (Or.inl hr)
  rw [Resting.add_of_free (hnone r.side)]
  refine ⟨fun ref s o => ?_, oneSide_set hb.oneSide hnone⟩
  rw [live_snoc_add hr, Resting.set_some_eq_some hnone, hb.live, eq_order_iff]
  refine or_congr_left ⟨?_, ?_⟩
  · intro hnew
    obtain ⟨href, hs, hp, hk⟩ := hnew
    exact ⟨href, hs, hp, hk, hk ▸ hpos⟩
  · intro hnew
    obtain ⟨href, hs, hp, hk, -⟩ := hnew
    exact ⟨href, hs, hp, hk⟩

/-- The orders left when a looked-up order is taken away. -/
theorem set_none_of_hit (hb : AgreesWith b h) {ref₀ : UInt64} {s₀ : Side} {o₀ : Order}
    (hhit : b.hit ref₀ = some (s₀, o₀)) (ref : UInt64) (s : Side) (o : Order) :
    b.set s₀ ref₀ none s ref = some o ↔ b s ref = some o ∧ ref₀ ≠ ref := by
  rw [Resting.set_none_eq_some]
  refine and_congr_right fun ho => not_congr ⟨fun hkey => hkey.2.symm, fun href => ?_⟩
  subst href
  exact ⟨hb.oneSide _ _ _ _ _ ho (Resting.eq_some_of_hit hhit), rfl⟩

theorem step_delete (hb : AgreesWith b h) (hr : r.action = .delete) {s₀ : Side} {o₀ : Order}
    (hhit : b.hit r.reference = some (s₀, o₀)) :
    AgreesWith (b.set s₀ r.reference none) (h ++ [r]) := by
  have hlive : ∀ {ref s p n}, Live (h ++ [r]) ref s p n ↔ Live h ref s p n ∧ r.reference ≠ ref := by
    intro ref s p n
    rw [live_snoc_of_introduces_nothing (by simp [hr]) (by simp [hr])]
    simp only [OrderRecord.taken, OrderRecord.Ends, hr]
    simp only [reduceCtorEq, false_and, if_false, or_false, true_and, Nat.add_zero]
    constructor
    · intro hl
      exact ⟨hl.1, hl.2.1⟩
    · intro hl
      exact ⟨hl.1, hl.2, hl.1.pos⟩
  refine ⟨fun ref s o => ?_, fun ref s s' o o' ho ho' => ?_⟩
  · rw [hlive, ← hb.live, ← hb.set_none_of_hit hhit]
  · exact hb.oneSide ref s s' o o' (Resting.set_none_eq_some.mp ho).1
      (Resting.set_none_eq_some.mp ho').1

theorem step_replace (hb : AgreesWith b h) (hw : WellFormedFeed (h ++ [r]))
    (hr : r.action = .replace) {s₀ : Side} {o₀ : Order}
    (hhit : b.hit r.reference = some (s₀, o₀)) :
    AgreesWith ((b.set s₀ r.reference none).add s₀ r.newReference r.order) (h ++ [r]) := by
  have hpos : 0 < r.shares.toNat := hw.sharesPos r (by simp) (Or.inr hr)
  have hrest := Resting.eq_some_of_hit hhit
  have hin : r.newReference ∈ r.introduces := by simp [OrderRecord.introduces, hr]
  have hfresh := hb.eq_none_of_fresh (hw.fresh hin)
  have hnone : ∀ s, b.set s₀ r.reference none s r.newReference = none := by
    intro s
    rw [Resting.set_apply]
    split
    · rfl
    · exact hfresh s
  -- the replaced order is live on the side the lookup found and on no other
  have hside : ∀ s, (∃ p' n', Live h r.reference s p' n') ↔ s = s₀ := by
    intro s
    constructor
    · intro hlive
      obtain ⟨p', n', hl⟩ := hlive
      obtain ⟨o, ho, -⟩ := hb.eq_some_of_live hl
      exact hb.oneSide _ _ _ _ _ ho hrest
    · rintro rfl
      exact ⟨_, _, (hb.live _ _ _).mp hrest⟩
  rw [Resting.add_of_free (hnone s₀)]
  refine ⟨fun ref s o => ?_, oneSide_set (fun ref s s' o o' ho ho' => ?_) hnone⟩
  · rw [live_snoc_replace hr, Resting.set_some_eq_some hnone, hb.set_none_of_hit hhit, hb.live,
      eq_order_iff, hside]
    refine or_congr_left ⟨?_, ?_⟩
    · intro hnew
      obtain ⟨href, hs, hp, hk⟩ := hnew
      exact ⟨href, hs, hp, hk, hk ▸ hpos⟩
    · intro hnew
      obtain ⟨href, hs, hp, hk, -⟩ := hnew
      exact ⟨href, hs, hp, hk⟩
  · exact hb.oneSide ref s s' o o' (Resting.set_none_eq_some.mp ho).1
      (Resting.set_none_eq_some.mp ho').1

theorem step_reduce (hb : AgreesWith b h) (hw : WellFormedFeed (h ++ [r]))
    (hr : r.action = .reduce) {s₀ : Side} {o₀ : Order}
    (hhit : b.hit r.reference = some (s₀, o₀)) :
    AgreesWith (b.set s₀ r.reference (o₀.reduce r.shares)) (h ++ [r]) := by
  have hlive : ∀ {ref s p n}, Live (h ++ [r]) ref s p n ↔
      Live h ref s p (n + if r.reference = ref then r.shares.toNat else 0) ∧ 0 < n := by
    intro ref s p n
    rw [live_snoc_of_introduces_nothing (by simp [hr]) (by simp [hr])]
    simp [OrderRecord.taken, OrderRecord.Ends, hr]
  have hrest := Resting.eq_some_of_hit hhit
  -- the feed overdraws nothing, so the subtraction does not wrap
  have hle : r.shares.toNat ≤ o₀.shares.toNat :=
    hw.noOverdraw h r [] rfl hr _ _ _ ((hb.live _ _ _).mp hrest)
  refine ⟨fun ref s o => ?_, fun ref s s' o o' ho ho' => ?_⟩
  · rw [hlive, Resting.set_apply]
    by_cases hkey : s = s₀ ∧ ref = r.reference
    · obtain ⟨rfl, rfl⟩ := hkey
      rw [if_pos ⟨rfl, rfl⟩, if_pos rfl, Order.reduce_eq_some hle]
      constructor
      · intro hreduced
        obtain ⟨hp, hsum, hpos⟩ := hreduced
        rw [hp, hsum]
        exact ⟨(hb.live _ _ _).mp hrest, hpos⟩
      · intro hlive
        obtain ⟨hl, hpos⟩ := hlive
        obtain ⟨o₁, ho₁, hp, hsum⟩ := hb.eq_some_of_live hl
        obtain rfl : o₀ = o₁ := by simpa [hrest] using ho₁
        exact ⟨hp.symm, hsum.symm, hpos⟩
    · rw [if_neg hkey]
      by_cases href : r.reference = ref
      · -- the reference that was hit, on the other side
        subst href
        have hs : s ≠ s₀ := fun hs => hkey ⟨hs, rfl⟩
        refine ⟨fun ho => absurd (hb.oneSide _ _ _ _ _ ho hrest) hs, fun hl => ?_⟩
        obtain ⟨o₁, ho₁, -⟩ := hb.eq_some_of_live hl.1
        exact absurd (hb.oneSide _ _ _ _ _ ho₁ hrest) hs
      · rw [if_neg href, Nat.add_zero, hb.live]
        exact ⟨fun hl => ⟨hl, hl.pos⟩, And.left⟩
  · have hold : ∀ {s o}, b.set s₀ r.reference (o₀.reduce r.shares) s ref = some o →
        ∃ o₁, b s ref = some o₁ := by
      intro s o ho
      rw [Resting.set_apply] at ho
      by_cases hkey : s = s₀ ∧ ref = r.reference
      · obtain ⟨rfl, rfl⟩ := hkey
        exact ⟨o₀, hrest⟩
      · rw [if_neg hkey] at ho
        exact ⟨o, ho⟩
    obtain ⟨o₁, ho₁⟩ := hold ho
    obtain ⟨o₂, ho₂⟩ := hold ho'
    exact hb.oneSide _ _ _ _ _ ho₁ ho₂

/-- A record that hits nothing, or that no one knows, says nothing about any
order. -/
theorem step_miss (hb : AgreesWith b h) (hr : r.action ≠ .add)
    (hmiss : r.action = .unknown ∨ b.hit r.reference = none) : AgreesWith b (h ++ [r]) := by
  -- either way the record names no live order, so it ends and takes nothing
  have hdead : r.action = .unknown ∨ ¬ ∃ s p n, Live h r.reference s p n :=
    hmiss.imp_right (hb.hit_eq_none_iff _).mp
  refine ⟨fun ref s o => ?_, hb.oneSide⟩
  rw [live_snoc, hb.live]
  constructor
  · intro hl
    have huntouched : r.action = .unknown ∨ r.reference ≠ ref :=
      hdead.imp_right fun hnot href => hnot ⟨_, _, _, href ▸ hl⟩
    have hend : ¬ r.Ends ref := by
      intro hends
      obtain ⟨ha, href⟩ := hends
      rcases huntouched with hu | hne
      · simp [hu] at ha
      · exact hne href
    have htaken : r.taken ref = 0 := by
      rw [OrderRecord.taken, if_neg]
      intro htakes
      obtain ⟨ha, href⟩ := htakes
      rcases huntouched with hu | hne
      · simp [hu] at ha
      · exact hne href
    rw [htaken, Nat.add_zero]
    exact Or.inr ⟨hl, hend, hl.pos⟩
  · intro hstep
    rcases hstep with ⟨-, -, -, ⟨ha, -⟩ | ⟨hu, -, p', n', hl⟩⟩ | ⟨hl, -, -⟩
    · exact absurd ha hr
    · rcases hdead with hd | hd
      · simp [hu] at hd
      · exact absurd ⟨_, _, _, hl⟩ hd
    · have htaken : r.taken ref = 0 := by
        rw [OrderRecord.taken, if_neg]
        intro htakes
        obtain ⟨ha, rfl⟩ := htakes
        rcases hdead with hd | hd
        · simp [ha] at hd
        · exact hd ⟨_, _, _, hl⟩
      rwa [htaken, Nat.add_zero] at hl

/-- **Step lemma.** Every record of a well-formed history keeps the orders at rest
and the ledger in agreement. -/
theorem step (hb : AgreesWith b h) (hw : WellFormedFeed (h ++ [r])) :
    AgreesWith (b.step r).2 (h ++ [r]) := by
  have heff := b.step_effect r
  generalize b.step r = out at heff
  cases heff with
  | add hr => exact hb.step_add hw hr
  | reduce hr hhit => exact hb.step_reduce hw hr hhit
  | delete hr hhit => exact hb.step_delete hr hhit
  | replace hr hhit => exact hb.step_replace hw hr hhit
  | miss hr hmiss => exact hb.step_miss hr hmiss

/-- **Run lemma.** After a well-formed history the orders at rest are the live
ones. -/
theorem run (h : List (OrderRecord F)) (hw : WellFormedFeed h) :
    AgreesWith (Core.run Resting.step Resting.empty h) h := by
  induction h using List.reverseRecOn with
  | nil => exact nil
  | append_singleton h r ih =>
      rw [run_snoc]
      exact (ih hw.of_append).step hw

end AgreesWith

/-! ### The engine -/

/-- A record fails iff it is no add and its type is unknown or its reference hits
nothing. -/
theorem Resting.step_eq_false (b : Resting) (r : OrderRecord F) :
    (b.step r).1 = false ↔
      r.action ≠ .add ∧ (r.action = .unknown ∨ b.hit r.reference = none) := by
  have heff := b.step_effect r
  generalize b.step r = out at heff
  cases heff with
  | miss hr hmiss => simp [hr, hmiss]
  | add hr => simp [hr]
  | reduce hr hhit | delete hr hhit | replace hr hhit => simp [hr, hhit]

/-- A record that fails changes nothing. -/
theorem Resting.step_snd_of_false {b : Resting} {r : OrderRecord F} (h : (b.step r).1 = false) :
    (b.step r).2 = b := by
  have heff := b.step_effect r
  generalize b.step r = out at heff h
  cases heff with
  | miss hr hmiss => rfl
  | add | reduce | delete | replace => cases h

/-- The engine implements the cumulative ledger on a history: it runs it to its end, then the orders
at rest are the live ones with the shares they have left, and no reference rests on both
sides; and on the way every record is answered, with a failure exactly if it is no add and its type
is unknown or its reference is not live, and a failure changes nothing. -/
structure ImplementsLedger (T : Type) [UnorderedMap T UInt64 Order] (h : List (OrderRecord F)) :
    Prop where
  rests : ∃ (outs : List Bool) (e : ExecutionEngine T), replay? T h = some (outs, e) ∧
    (∀ ref s p n, e.resting s ref = some ⟨p, n⟩ ↔ Live h ref s p n.toNat) ∧
    ∀ ref, e.resting .buy ref = none ∨ e.resting .sell ref = none
  answers : ∀ pre r post, h = pre ++ r :: post → ∃ (outs : List Bool) (done : Bool)
      (e e' : ExecutionEngine T), replay? T pre = some (outs, e) ∧ e.runOrder? r = some (done, e') ∧
    (r.action = .add → done = true) ∧
    (r.action ≠ .add → (done = false ↔
      r.action = .unknown ∨ ¬ ∃ s p n, Live pre r.reference s p n)) ∧
    (done = false → e'.resting = e.resting)

/-- **Where the engine implements the cumulative ledger.** On a well-formed history, over every
table, if and only if no insertion of the run throws. -/
theorem implements_ledger_iff (T : Type) [UnorderedMap T UInt64 Order] (h : List (OrderRecord F))
    (hw : WellFormedFeed h) :
    ImplementsLedger T h ↔ Along runOrder Fits (ExecutionEngine.empty : ExecutionEngine T) h := by
  constructor
  · intro himpl
    obtain ⟨outs, e, hrun, -⟩ := himpl.rests
    exact (ExecutionEngine.run?_eq_some_iff.mp hrun).1
  · intro hfits
    have hagree := AgreesWith.run h hw
    rw [← resting_replay (T := T)] at hagree
    refine ⟨⟨_, replay T h, ExecutionEngine.run?_eq_some_iff.mpr ⟨hfits, rfl⟩,
      fun ref s p n => hagree.live ref s ⟨p, n⟩, fun ref => ?_⟩, ?_⟩
    · cases hbuy : (replay T h).resting .buy ref with
      | none => exact Or.inl rfl
      | some o =>
          cases hsell : (replay T h).resting .sell ref with
          | none => exact Or.inr rfl
          | some o' => cases hagree.oneSide ref _ _ o o' hbuy hsell
    -- failures speak about the state in front of the record, a run of its own
    · rintro pre r post rfl
      have hpre := AgreesWith.run pre hw.of_append
      rw [← resting_replay (T := T)] at hpre
      refine ⟨_, ((replay T pre).runOrder r).1, replay T pre, ((replay T pre).runOrder r).2,
        ExecutionEngine.run?_eq_some_iff.mpr ⟨hfits.of_append, rfl⟩,
        ExecutionEngine.runOrder?_of_fits (hfits.at_append), ?_⟩
      rw [runOrder_fst, resting_runOrder]
      refine ⟨fun hr => ?_, fun hr => ?_, Resting.step_snd_of_false⟩
      · rw [← Bool.not_eq_false, Resting.step_eq_false]
        exact fun hc => hc.1 hr
      · rw [Resting.step_eq_false, hpre.hit_eq_none_iff]
        exact and_iff_right hr

/-- **A crowd of orders.** 128 orders are added, each under a reference of its own. The table throws
at the last of them, where the ledger has it live. -/
theorem crowd_breaks_ledger :
    let h := RobinHood.crowd.map RobinHood.buyAdd
    WellFormedFeed h ∧ replay? (RobinHood.Table Order) h = none ∧
      ¬ ImplementsLedger (RobinHood.Table Order) h := by
  intro h
  refine ⟨⟨?_, ?_, ?_⟩, RobinHood.replay?_crowd, fun himpl => ?_⟩
  · have hrefs : introduced h = RobinHood.crowd := by
      rw [introduced, List.flatMap_map]
      exact List.flatMap_singleton' _
    rw [hrefs]
    exact RobinHood.nodup_crowd
  · intro r hr _
    obtain ⟨ref, -, rfl⟩ := List.mem_map.mp hr
    exact (by decide : 0 < (10 : UInt32).toNat)
  · intro pre r post hsplit hr
    have hmem : r ∈ h := hsplit ▸ List.mem_append_right _ List.mem_cons_self
    obtain ⟨ref, -, rfl⟩ := List.mem_map.mp hmem
    cases hr
  · obtain ⟨outs, e, hrun, -⟩ := himpl.rests
    rw [RobinHood.replay?_crowd] at hrun
    cases hrun

/-- An order of a hundred shares, a part of it executed, the rest replaced. -/
def sampleFeed : List (OrderRecord Rat) :=
  [⟨1, 0, 100, 1, 'A'.toUInt8, true⟩, ⟨1, 0, 40, 0, 'E'.toUInt8, false⟩,
    ⟨1, 2, 50, 2, 'U'.toUInt8, false⟩]

theorem sampleFeed_wellFormed : WellFormedFeed sampleFeed := by
  have hadd : WellFormedFeed [(⟨1, 0, 100, 1, 'A'.toUInt8, true⟩ : OrderRecord Rat)] :=
    WellFormedFeed.nil.snoc (by decide) (by decide) (fun hr => absurd hr (by decide))
  refine (hadd.snoc (r := ⟨1, 0, 40, 0, 'E'.toUInt8, false⟩) (by decide) (by decide) ?_).snoc
    (r := ⟨1, 2, 50, 2, 'U'.toUInt8, false⟩) (by decide) (by decide)
    (fun hr => absurd hr (by decide))
  intro _ s p n hl
  obtain ⟨o, ho, -, rfl⟩ := (AgreesWith.run _ hadd).eq_some_of_live hl
  cases s with
  | buy =>
      obtain rfl : (⟨1000, 100⟩ : Order) = o := Option.some.inj (Eq.trans (by decide +kernel) ho)
      decide
  | sell => exact absurd (Eq.trans (by decide +kernel) ho : (none : Option Order) = some o) nofun

/-- The ledger's reading of the sample feed is what the engine holds after it. -/
theorem sampleFeed_implements_ledger :
    ImplementsLedger (AssocList UInt64 Order) sampleFeed ∧ Live sampleFeed 2 .buy 2000 50 := by
  have himpl :=
    (implements_ledger_iff (AssocList UInt64 Order) sampleFeed sampleFeed_wellFormed).mpr
    (ExecutionEngine.along_fits_assocList _ _)
  refine ⟨himpl, ?_⟩
  obtain ⟨outs, e, hrun, hlive, -⟩ := himpl.rests
  obtain rfl : replay (AssocList UInt64 Order) sampleFeed = e :=
    congrArg Prod.snd (ExecutionEngine.run?_eq_some_iff.mp hrun).2
  exact (hlive 2 .buy 2000 50).mp (by decide +kernel)

end TradingDesk.Exec
