import TradingDesk.Exec.Collapse

/-!
# TradingDesk.Exec.Levels

**The volume of a collapsed book.** A level keeps its shares in the 32 bits that one order
has for its own, and nothing bounds how many orders rest at a price. A collapsed book
has the volume of its side exactly as long as no price has 2^32 shares, and
`collapsing_conserves_volume_iff` says which records keep it so: those that leave an
order at a price only where there is room for its shares.
-/

namespace TradingDesk.Exec

open TradingDesk.Core
open UnorderedMap (find? toList erase)
open ExecutionEngine (replay runOrder)

/-! ### Shares at a price -/

section

variable {T : Type} [UnorderedMap T UInt64 Order]

/-- The orders of a map, as book entries in iteration order. -/
def entriesOf (m : T) : List BookEntry := (toList m).map fun e => (e.2, e.1)

/-- The shares that rest in a map at a price. -/
def sharesAt (m : T) (price : UInt32) : Nat :=
  sharesOf ((entriesOf m).filter fun e => decide (e.price = price))

theorem sharesOf_perm {as bs : List BookEntry} (h : as.Perm bs) : sharesOf as = sharesOf bs :=
  (h.map _).sum_eq

theorem entriesOf_perm {m n : T} (h : find? m = find? n) : (entriesOf m).Perm (entriesOf n) :=
  (UnorderedMap.toList_perm (congrFun h)).map _

theorem sharesAt_congr {m n : T} (h : find? m = find? n) (price : UInt32) :
    sharesAt m price = sharesAt n price := sharesOf_perm ((entriesOf_perm h).filter _)

/-- One more order. -/
theorem sharesAt_insert {m n : T} {ref : UInt64} {o : Order} (hfree : find? m ref = none)
    (h : find? n = Function.update (find? m) ref (some o)) (price : UInt32) :
    sharesAt n price = (if o.price = price then o.shares.toNat else 0) + sharesAt m price := by
  have hperm : (entriesOf n).Perm ((o, ref) :: entriesOf m) :=
    (UnorderedMap.toList_perm_cons hfree h).map _
  rw [sharesAt, sharesOf_perm (hperm.filter _), List.filter_cons]
  by_cases hp : o.price = price
  · simp [BookEntry.price, hp, sharesAt]
  · simp [BookEntry.price, hp, sharesAt]

theorem sharesAt_erase_le (m : T) (ref : UInt64) (price : UInt32) :
    sharesAt (erase m ref) price ≤ sharesAt m price := by
  have herase : find? (erase m ref) = Function.update (find? m) ref none :=
    UnorderedMap.find?_erase m ref
  cases hm : find? m ref with
  | none =>
      rw [← hm, Function.update_eq_self] at herase
      exact le_of_eq (sharesAt_congr herase price)
  | some o =>
      have hback : find? m = Function.update (find? (erase m ref)) ref (some o) := by
        rw [herase, Function.update_idem, ← hm, Function.update_eq_self]
      have hgone : find? (erase m ref) ref = none := by simp
      rw [sharesAt_insert hgone hback price]
      exact Nat.le_add_left _ _

/-! ### When collapsing conserves the volume -/

/-- The shares of the levels of a side are the shares of its orders. -/
def ConservesVolume (e : ExecutionEngine T) (s : Side) : Prop :=
  ((collapseBook (e.book s)).map fun level => level.2.toNat).sum = sharesOf (entriesOf (e.side s))

theorem conservesVolume_iff (e : ExecutionEngine T) (s : Side) :
    ConservesVolume e s ↔ ∀ price, sharesAt (e.side s) price < 2 ^ 32 := by
  have hperm : (makeBook (e.side s)).Perm (entriesOf (e.side s)) := makeBook_perm _
  have hsorted := makeBook_sorted (e.side s)
  have hlevels : (collapseBook (makeBook (e.side s))).map (fun level => level.2.toNat)
      = (runs BookEntry.price (makeBook (e.side s))).map fun run => sharesOf run.2 % 2 ^ 32 := by
    rw [collapseBook_eq hsorted, levelsOf, List.map_map]
    exact List.map_congr_left fun run _ => UInt32.toNat_ofNat'
  rw [ConservesVolume, e.book_eq, hlevels, ← sharesOf_perm hperm]
  refine (sum_map_mod_runs_eq_iff hsorted (fun e => e.1.shares.toNat) (by norm_num)).trans ?_
  refine forall_congr' fun price => ?_
  rw [sharesAt, ← sharesOf_perm (hperm.filter _)]
  rfl

/-- No price has as many shares as a level cannot count. -/
def LevelsFit (e : ExecutionEngine T) : Prop := ∀ s price, sharesAt (e.side s) price < 2 ^ 32

theorem levelsFit_empty : LevelsFit (ExecutionEngine.empty : ExecutionEngine T) := by
  intro s price
  have hnil : toList ((ExecutionEngine.empty : ExecutionEngine T).side s) = [] := by
    refine UnorderedMap.toList_eq_nil fun ref => ?_
    cases s <;> exact UnorderedMap.find?_empty ref
  rw [sharesAt, entriesOf, hnil]
  exact Nat.two_pow_pos 32

end

/-! ### What a record leaves -/

namespace Resting

variable {F : Type} [DoubleArith F]

/-- The order that a record leaves on the book, and its side: one that it introduces under
a free reference, or what is left of one that it takes shares from. -/
def leaves (b : Resting) (r : OrderRecord F) : Option (Side × Order) :=
  match r.action with
  | .add => if b r.side r.reference = none then some (r.side, r.order) else none
  | .reduce => (b.hit r.reference).bind fun hit => (hit.2.reduce r.shares).map fun o => (hit.1, o)
  | .replace => (b.hit r.reference).bind fun hit =>
      if b.set hit.1 r.reference none hit.1 r.newReference = none
        then some (hit.1, r.order) else none
  | _ => none

/-- **What a record does to the orders at rest**: where it leaves an order, that is one
order more once its own reference is vacated; otherwise at most an order is gone. -/
theorem step_leaves (b : Resting) (r : OrderRecord F) :
    (∃ s o ref, b.leaves r = some (s, o) ∧ b.set s r.reference none s ref = none ∧
        (b.step r).2 = (b.set s r.reference none).set s ref (some o)) ∨
      b.leaves r = none ∧ ((b.step r).2 = b ∨ ∃ s, (b.step r).2 = b.set s r.reference none) := by
  unfold leaves
  have heff := b.step_effect r
  generalize b.step r = out at heff
  cases heff with
  | add hr =>
      simp only [hr]
      by_cases hfree : b r.side r.reference = none
      · refine Or.inl ⟨r.side, r.order, r.reference, if_pos hfree, set_self _ _ _ _, ?_⟩
        rw [set_set, add_of_free hfree]
      · exact Or.inr ⟨if_neg hfree, Or.inl (add_of_taken hfree _)⟩
  | @reduce s o hr hhit =>
      simp only [hr, hhit, Option.bind_some]
      cases hleft : o.reduce r.shares with
      | none => exact Or.inr ⟨rfl, Or.inr ⟨s, rfl⟩⟩
      | some o' =>
          refine Or.inl ⟨s, o', r.reference, rfl, set_self _ _ _ _, ?_⟩
          rw [set_set]
  | @delete s o hr hhit =>
      simp only [hr]
      exact Or.inr ⟨trivial, Or.inr ⟨s, rfl⟩⟩
  | @replace s o hr hhit =>
      simp only [hr, hhit, Option.bind_some]
      by_cases hfree : b.set s r.reference none s r.newReference = none
      · exact Or.inl ⟨s, r.order, r.newReference, if_pos hfree, hfree, add_of_free hfree _⟩
      · exact Or.inr ⟨if_neg hfree, Or.inr ⟨s, add_of_taken hfree _⟩⟩
  | miss hr hmiss =>
      refine Or.inr ⟨?_, Or.inl rfl⟩
      rcases hmiss with hu | hmiss
      · simp [hu]
      · cases ha : r.action <;> simp_all

end Resting

/-! ### Steps and runs -/

variable {T F : Type} [UnorderedMap T UInt64 Order] [DoubleArith F]

/-- If the record leaves an order on the book, the others at its price on its side have
room for its shares. -/
def LevelHasRoom (e : ExecutionEngine T) (r : OrderRecord F) : Prop :=
  ∀ s o, e.resting.leaves r = some (s, o) →
    sharesAt (erase (e.side s) r.reference) o.price + o.shares.toNat < 2 ^ 32

theorem levelHasRoom_iff {e : ExecutionEngine T} {r : OrderRecord F} {s : Side} {o : Order}
    (h : e.resting.leaves r = some (s, o)) :
    LevelHasRoom e r
      ↔ sharesAt (erase (e.side s) r.reference) o.price + o.shares.toNat < 2 ^ 32 := by
  refine ⟨fun hroom => hroom s o h, fun hroom s' o' h' => ?_⟩
  rw [h] at h'
  cases h'
  exact hroom

/-- At most an order is gone: the levels still fit. -/
theorem levelsFit_of_gone {e e' : ExecutionEngine T} {ref : UInt64} (h : LevelsFit e)
    (hgone : ∀ s, find? (e'.side s) = find? (e.side s) ∨
      find? (e'.side s) = find? (erase (e.side s) ref)) : LevelsFit e' := by
  intro s price
  refine lt_of_le_of_lt ?_ (h s price)
  rcases hgone s with hsame | hgone
  · exact le_of_eq (sharesAt_congr hsame price)
  · rw [sharesAt_congr hgone]
    exact sharesAt_erase_le _ _ _

/-- On one side, one order more once a reference is vacated: whether the levels still fit is
a matter of its price. -/
theorem levelsFit_iff_of_left {e e' : ExecutionEngine T} {s : Side} {ref ref' : UInt64} {o : Order}
    (h : LevelsFit e) (hfree : find? (erase (e.side s) ref) ref' = none)
    (hside : find? (e'.side s) = Function.update (find? (erase (e.side s) ref)) ref' (some o))
    (hother : ∀ s', s' ≠ s → find? (e'.side s') = find? (e.side s')) :
    LevelsFit e' ↔ sharesAt (erase (e.side s) ref) o.price + o.shares.toNat < 2 ^ 32 := by
  have hshares := sharesAt_insert hfree hside
  constructor
  · intro hfit
    have hlevel := hfit s o.price
    rwa [hshares, if_pos rfl, Nat.add_comm] at hlevel
  · intro hlt s' price
    by_cases hs : s' = s
    · subst hs
      rw [hshares]
      split
      · rename_i hp
        rwa [← hp, Nat.add_comm]
      · rw [Nat.zero_add]
        exact lt_of_le_of_lt (sharesAt_erase_le _ _ _) (h s' price)
    · rw [sharesAt_congr (hother s' hs)]
      exact h s' price

/-- **Step lemma.** A record keeps the levels within their range exactly if there is room
for the order that it leaves. -/
theorem levelsFit_step (e : ExecutionEngine T) (r : OrderRecord F) (h : LevelsFit e) :
    LevelsFit (e.runOrder r).2 ↔ LevelHasRoom e r := by
  have hnext : ∀ s, find? ((e.runOrder r).2.side s) = (e.resting.step r).2 s :=
    congrFun (ExecutionEngine.resting_runOrder e r)
  have hvacate : ∀ s, find? (erase (e.side s) r.reference)
      = e.resting.set s r.reference none s := by
    intro s
    rw [UnorderedMap.find?_erase, Resting.set, Function.update_self]
    rfl
  have hkeep : ∀ {s s'} (ref o), s' ≠ s → e.resting.set s ref o s' = find? (e.side s') := by
    intro s s' ref o hs
    rw [Resting.set, Function.update_of_ne hs]
    rfl
  rcases e.resting.step_leaves r with ⟨s, o, ref, hleaves, hfree, hstep⟩ | ⟨hleaves, hstep⟩
  · rw [levelHasRoom_iff hleaves]
    refine @levelsFit_iff_of_left T _ e _ s r.reference ref o h ?_ ?_ fun s' hs => ?_
    · rw [hvacate]
      exact hfree
    · rw [hnext, hstep, hvacate, Resting.set, Function.update_self]
    · rw [hnext, hstep, Resting.set, Function.update_of_ne hs, hkeep _ _ hs]
  · refine iff_of_true (@levelsFit_of_gone T _ e _ r.reference h fun s' => ?_) fun s o hsome => ?_
    · rw [hnext]
      rcases hstep with hsame | ⟨s, hgone⟩
      · rw [hsame]
        exact Or.inl rfl
      · rw [hgone]
        by_cases hs : s' = s
        · subst hs
          exact Or.inr (hvacate s').symm
        · exact Or.inl (hkeep _ _ hs)
    · rw [hleaves] at hsome
      cases hsome

/-- **Collapsing conserves the volume, as long as there is room at each price.** In every
state of a run the levels of both collapsed books have the shares of the orders at rest,
if and only if each record of the run that leaves an order on the book finds the
others at its price with room for its shares. -/
theorem collapsing_conserves_volume_iff (T : Type) [UnorderedMap T UInt64 Order]
    (h : List (OrderRecord F)) :
    (∀ pre post, h = pre ++ post → ∀ s, ConservesVolume (replay T pre) s) ↔
      Along runOrder LevelHasRoom (ExecutionEngine.empty : ExecutionEngine T) h := by
  rw [← invariant_iff_along levelsFit_step levelsFit_empty]
  refine forall_congr' fun pre => forall_congr' fun post => imp_congr_right fun _ => ?_
  exact forall_congr' fun s => conservesVolume_iff (replay T pre) s

/-- Two orders at one price, of all but one of the shares that a level can count and of
two. -/
theorem level_overflows :
    let adds : List (OrderRecord Rat) :=
      [⟨1, 0, 4294967295, 1, 'A'.toUInt8, true⟩, ⟨2, 0, 2, 1, 'A'.toUInt8, true⟩]
    let e := replay (AssocList UInt64 Order) adds
    collapseBook e.buyBook = [(1000, 1)] ∧ ¬ ConservesVolume e .buy := by
  intro adds e
  refine ⟨by decide +kernel, ?_⟩
  unfold ConservesVolume
  decide +kernel

end TradingDesk.Exec
