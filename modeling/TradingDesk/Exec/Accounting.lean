import Mathlib.Algebra.Group.Pi.Basic
import Mathlib.Data.UInt
import TradingDesk.Core.Accounts
import TradingDesk.Exec.Levels
import TradingDesk.Exec.Volume

/-!
# TradingDesk.Exec.Accounting

**Shares in, shares out.** Every record enters shares at a price of a side, withdraws shares
there, or both: an add enters an order, an execution or a cancel withdraws shares of the
order that it hits, a delete withdraws the order, and a replacement withdraws one order and
enters another.

A level of a collapsed book has what was entered at its price less what was withdrawn there, in
its own 32 bits. That holds whatever wrapped on the way, an order that was overdrawn or a
level that overflowed. The account is exact in the natural numbers, in all states of a
run, as long as no order is overdrawn.
-/

namespace TradingDesk.Exec

open TradingDesk.Core
open UnorderedMap (find? erase)
open ExecutionEngine (replay replay? runOrder)

/-! ### Postings -/

/-- Shares by side and price. -/
abbrev Account := Side → UInt32 → ℕ

/-- Shares in 32-bit arithmetic. -/
def Account.wrap : Account →+ (Side → UInt32 → UInt32) where
  toFun account s price := UInt32.ofNat (account s price)
  map_zero' := rfl
  map_add' v w := by
    funext s price
    exact UInt32.ofNat_add _ _

@[simp] theorem Account.wrap_apply (v : Account) (s : Side) (price : UInt32) :
    v.wrap s price = UInt32.ofNat (v s price) := rfl

/-- The shares of an order, at its price on its side. -/
def posting : Option (Side × Order) → Account
  | none => 0
  | some (s, o) => fun s' price => if s' = s ∧ o.price = price then o.shares.toNat else 0

namespace Resting

variable {F : Type} [DoubleArith F]

/-- The order that a record enters: an add or a replacement whose reference is free. -/
def entered (b : Resting) (r : OrderRecord F) : Option (Side × Order) :=
  match r.action with
  | .add => if b r.side r.reference = none then some (r.side, r.order) else none
  | .replace => (b.hit r.reference).bind fun hit =>
      if b.set hit.1 r.reference none hit.1 r.newReference = none
        then some (hit.1, r.order) else none
  | _ => none

/-- The shares that a record withdraws, with the price of the order that it hits. -/
def withdrawn {F : Type} (b : Resting) (r : OrderRecord F) : Option (Side × Order) :=
  match r.action with
  | .reduce => (b.hit r.reference).map fun hit => (hit.1, { hit.2 with shares := r.shares })
  | .delete | .replace => b.hit r.reference
  | _ => none

end Resting

section

variable {T : Type} [UnorderedMap T UInt64 Order]

/-- The shares that rest. -/
def ExecutionEngine.volume (e : ExecutionEngine T) : Account := fun s => sharesAt (e.side s)

/-- The shares that a collapsed book shows at a price, none where it has no level. -/
def ExecutionEngine.levelAt (e : ExecutionEngine T) (s : Side) (price : UInt32) : UInt32 :=
  ((collapseBook (e.book s)).lookup price).getD 0

/-- A level has the shares that rest at its price, in 32-bit arithmetic. -/
theorem levelAt_eq (e : ExecutionEngine T) (s : Side) (price : UInt32) :
    e.levelAt s price = UInt32.ofNat (e.volume s price) := by
  have hsorted := makeBook_sorted (e.side s)
  have hshares : e.volume s price
      = sharesOf ((makeBook (e.side s)).filter fun e => decide (e.price = price)) :=
    (sharesOf_perm ((makeBook_perm (e.side s)).filter _)).symm
  rw [hshares, ExecutionEngine.levelAt, e.book_eq, collapseBook_eq hsorted]
  cases hlevel : (levelsOf (makeBook (e.side s))).lookup price with
  | some shares =>
      obtain ⟨front, back, hsplit, -⟩ := List.lookup_eq_some_iff.mp hlevel
      have hmem : (price, shares) ∈ levelsOf (makeBook (e.side s)) := by
        rw [hsplit]
        exact List.mem_append_cons_self
      obtain ⟨⟨price', group⟩, hrun, heq⟩ := List.mem_map.mp hmem
      cases heq
      rw [← eq_filter_of_mem_runs hsorted hrun, Option.getD_some]
  | none =>
      -- no order rests at the price
      have hnil : (makeBook (e.side s)).filter (fun e => decide (e.price = price)) = [] := by
        refine List.filter_eq_nil_iff.mpr fun entry hentry hprice => ?_
        obtain ⟨run, hrun, hkey⟩ := List.mem_map.mp
          (mem_keys_runs.mpr ⟨entry, hentry, of_decide_eq_true hprice⟩)
        have hne := List.lookup_eq_none_iff.mp hlevel _ (List.mem_map_of_mem hrun)
        simp [hkey] at hne
      rw [hnil]
      rfl

/-! ### What a write to one reference does to the volume -/

theorem sharesAt_of_update {m n : T} {ref : UInt64} {left : Option Order}
    (h : find? n = Function.update (find? m) ref left) (price : UInt32) :
    sharesAt n price + (find? m ref).elim 0 (fun o => if o.price = price then o.shares.toNat else 0)
      = sharesAt m price + left.elim 0 fun o => if o.price = price then o.shares.toNat else 0 := by
  have hgone : find? (erase m ref) ref = none := by simp
  have hback : ∀ {k : T} {o : Option Order}, find? k = Function.update (find? m) ref o →
      find? k = Function.update (find? (erase m ref)) ref o := by
    intro k o hk
    rw [hk, UnorderedMap.find?_erase, Function.update_idem]
  have hshares : ∀ {k : T} {o : Option Order}, find? k = Function.update (find? m) ref o →
      sharesAt k price = o.elim 0 (fun o => if o.price = price then o.shares.toNat else 0)
        + sharesAt (erase m ref) price := by
    intro k o hk
    cases o with
    | none =>
        rw [sharesAt_congr (hk.trans (UnorderedMap.find?_erase m ref).symm)]
        exact (Nat.zero_add _).symm
    | some o => exact sharesAt_insert hgone (hback hk) price
  have hm : find? m = Function.update (find? m) ref (find? m ref) := by rw [Function.update_eq_self]
  rw [hshares h, hshares hm]
  omega

theorem volume_of_set {e e' : ExecutionEngine T} {s : Side} {ref : UInt64} {left : Option Order}
    (h : e'.resting = e.resting.set s ref left) :
    e'.volume + posting ((e.resting s ref).map fun o => (s, o))
      = e.volume + posting (left.map fun o => (s, o)) := by
  have hposting : ∀ (o : Option Order) s' price, posting (o.map fun o => (s, o)) s' price
      = if s' = s then o.elim 0 fun o => if o.price = price then o.shares.toNat else 0 else 0 := by
    intro o s' price
    cases o with
    | none => simp [posting]
    | some o => by_cases hs : s' = s <;> simp [posting, hs]
  funext s' price
  rw [Pi.add_apply, Pi.add_apply, Pi.add_apply, Pi.add_apply, hposting, hposting]
  by_cases hs : s' = s
  · subst hs
    rw [if_pos rfl, if_pos rfl]
    refine sharesAt_of_update ((congrFun h s').trans ?_) price
    rw [Resting.set, Function.update_self]
    rfl
  · rw [if_neg hs, if_neg hs]
    refine sharesAt_congr ((congrFun h s').trans ?_) price
    rw [Resting.set, Function.update_of_ne hs]
    rfl

/-! ### One record -/

variable {F : Type} [DoubleArith F]

/-- Nothing rests under the reference afterwards. -/
theorem volume_of_removed {e e' : ExecutionEngine T} {s : Side} {ref : UInt64} {o : Order}
    (hrest : e.resting s ref = some o) (h : e'.resting = e.resting.set s ref none) :
    e'.volume + posting (some (s, o)) = e.volume := by
  have hset := volume_of_set h
  rwa [hrest] at hset

/-- An order is entered, if the reference is free. -/
theorem volume_of_add {e e' : ExecutionEngine T} {s : Side} {ref : UInt64} {o : Order}
    (h : e'.resting = e.resting.add s ref o) :
    e'.volume = e.volume + posting (if e.resting s ref = none then some (s, o) else none) := by
  by_cases hfree : e.resting s ref = none
  · rw [Resting.add_of_free hfree] at h
    have hset := volume_of_set h
    rw [hfree] at hset
    rw [if_pos hfree]
    exact hset
  · rw [Resting.add_of_taken hfree] at h
    rw [if_neg hfree]
    funext s' price
    exact sharesAt_congr (congrFun h s') price

/-- The record's account: what rests afterwards and what was withdrawn is what rested and what
was entered. -/
abbrev Accounted (e : ExecutionEngine T) (r : OrderRecord F) : Prop :=
  Balances runOrder ExecutionEngine.volume
    (fun e (r : OrderRecord F) => posting (e.resting.entered r))
    (fun e r => posting (e.resting.withdrawn r)) e r

/-- **Step lemma.** An execution or cancel leaves what `Order.reduce` says of the order it hits; a
record that hits no order so is accounted for. -/
theorem volume_step (e : ExecutionEngine T) (r : OrderRecord F) :
    Accounted e r ∧ (r.action = .reduce → e.resting.hit r.reference = none) ∨
      ∃ s o, r.action = .reduce ∧ e.resting.hit r.reference = some (s, o) ∧
      (e.runOrder r).2.volume + posting (some (s, o))
        = e.volume + posting ((o.reduce r.shares).map fun o => (s, o)) := by
  unfold Accounted Balances Resting.entered Resting.withdrawn
  have hnext := ExecutionEngine.resting_runOrder e r
  have heff := e.resting.step_effect r
  generalize e.resting.step r = out at hnext heff
  cases heff with
  | add hr =>
      refine Or.inl ⟨?_, by simp [hr]⟩
      simp only [hr]
      exact volume_of_add hnext
  | @reduce s o hr hhit =>
      right
      refine ⟨s, o, hr, hhit, ?_⟩
      have hset := volume_of_set hnext
      rwa [Resting.eq_some_of_hit hhit] at hset
  | @delete s o hr hhit =>
      refine Or.inl ⟨?_, by simp [hr]⟩
      simp only [hr, hhit]
      exact volume_of_removed (Resting.eq_some_of_hit hhit) hnext
  | @replace s o hr hhit =>
      refine Or.inl ⟨?_, by simp [hr]⟩
      simp only [hr, hhit, Option.bind_some]
      -- the state between the two writes
      let mid := e.setSide s (erase (e.side s) r.reference)
      have hmid : mid.resting = e.resting.set s r.reference none := by
        rw [ExecutionEngine.resting_setSide, UnorderedMap.find?_erase]
        rfl
      have hadd : (e.runOrder r).2.volume = mid.volume + _ :=
        volume_of_add (by rw [hmid]; exact hnext)
      rw [hadd, hmid, add_right_comm, volume_of_removed (Resting.eq_some_of_hit hhit) hmid]
  | miss hr hmiss =>
      refine Or.inl ⟨?_, fun hr => hmiss.resolve_left (by simp [hr])⟩
      have hvolume : (e.runOrder r).2.volume = e.volume := by
        funext s price
        exact sharesAt_congr (congrFun hnext s) price
      rw [hvolume]
      rcases hmiss with hu | hmiss
      · simp only [hu]
      · cases ha : r.action <;> simp_all

/-! ### Executions and cancels -/

theorem posting_reduce (s : Side) (o : Order) (n : UInt32) :
    posting ((o.reduce n).map fun o => (s, o))
      = posting (some (s, { o with shares := o.shares - n })) := by
  unfold Order.reduce
  by_cases hz : o.shares - n = 0
  · rw [if_pos hz, hz]
    funext s' price
    by_cases hat : s' = s ∧ o.price = price <;> simp [posting, hat]
  · rw [if_neg hz]
    rfl

/-- What is left and what was taken, in 32 bits, is what there was. -/
theorem wrap_posting_reduce (s : Side) (o : Order) (n : UInt32) :
    Account.wrap (posting ((o.reduce n).map fun o => (s, o)))
        + Account.wrap (posting (some (s, { o with shares := n })))
      = Account.wrap (posting (some (s, o))) := by
  rw [posting_reduce]
  funext s' price
  by_cases hat : s' = s ∧ o.price = price <;> simp [posting, hat]

/-- In the natural numbers it is if the order had that many. -/
theorem posting_reduce_iff (s : Side) (o : Order) (n : UInt32) :
    posting ((o.reduce n).map fun o => (s, o)) + posting (some (s, { o with shares := n }))
        = posting (some (s, o)) ↔ n.toNat ≤ o.shares.toNat := by
  rw [posting_reduce]
  constructor
  · intro h
    have hat : (o.shares - n).toNat + n.toNat = o.shares.toNat := by
      simpa [posting] using congrFun (congrFun h s) o.price
    omega
  · intro hle
    have hsub : (o.shares - n).toNat = o.shares.toNat - n.toNat :=
      UInt32.toNat_sub_of_le _ _ (UInt32.le_iff_toNat_le.mpr hle)
    funext s' price
    by_cases hat : s' = s ∧ o.price = price
    · simp only [posting, Pi.add_apply, if_pos hat, hsub]
      omega
    · simp [posting, hat]

/-- The account of an execution or cancel. -/
theorem postings_of_reduce {e : ExecutionEngine T} {r : OrderRecord F} {s : Side} {o : Order}
    (hr : r.action = .reduce) (hhit : e.resting.hit r.reference = some (s, o)) :
    posting (e.resting.entered r) = 0 ∧
      posting (e.resting.withdrawn r) = posting (some (s, { o with shares := r.shares })) := by
  simp only [Resting.entered, Resting.withdrawn, hr, hhit, Option.map_some, posting, and_self]

/-- In 32 bits every record is accounted for. -/
theorem accounted_wrap (e : ExecutionEngine T) (r : OrderRecord F) :
    Balances runOrder (fun e => Account.wrap e.volume)
      (fun e (r : OrderRecord F) => Account.wrap (posting (e.resting.entered r)))
      (fun e r => Account.wrap (posting (e.resting.withdrawn r))) e r := by
  unfold Balances
  rcases volume_step e r with ⟨haccounted, -⟩ | ⟨s, o, hr, hhit, hvolume⟩
  · simp only [← map_add]
    exact congrArg _ haccounted
  · obtain ⟨hentered, hwithdrawn⟩ := postings_of_reduce hr hhit
    have hwrap := congrArg Account.wrap hvolume
    rw [map_add, map_add, ← wrap_posting_reduce s o r.shares,
      add_comm (Account.wrap (posting ((o.reduce r.shares).map _))), ← add_assoc] at hwrap
    simp only [hentered, hwithdrawn, map_zero, add_zero]
    -- what is left of the order stands on both sides
    exact add_right_cancel hwrap

/-- In the natural numbers a record is accounted for unless it overdraws an order. -/
theorem accounted_iff (e : ExecutionEngine T) (r : OrderRecord F) :
    Accounted e r ↔ (r.action = .reduce → Covered e r) := by
  rcases volume_step e r with ⟨haccounted, hmiss⟩ | ⟨s, o, hr, hhit, hvolume⟩
  · refine iff_of_true haccounted fun hr s o hhit => ?_
    rw [hmiss hr] at hhit
    cases hhit
  · obtain ⟨hentered, hwithdrawn⟩ := postings_of_reduce hr hhit
    have hcovered : (r.action = .reduce → Covered e r) ↔ r.shares.toNat ≤ o.shares.toNat := by
      constructor
      · intro h
        exact h hr s o hhit
      · intro hle _ s' o' hhit'
        rw [hhit, Option.some.injEq, Prod.mk.injEq] at hhit'
        exact hhit'.2 ▸ hle
    rw [hcovered, ← posting_reduce_iff s o r.shares, Accounted, Balances, hentered, hwithdrawn,
      add_zero]
    -- what is left of the order goes to both sides
    have hmoved : ∀ w : Account,
      (e.runOrder r).2.volume + w + posting ((o.reduce r.shares).map fun o => (s, o))
        = (e.runOrder r).2.volume + (posting ((o.reduce r.shares).map fun o => (s, o)) + w) := by
      intro w
      rw [add_assoc, add_comm w]
    rw [← add_left_inj (posting ((o.reduce r.shares).map fun o => (s, o))), ← hvolume, hmoved,
      add_right_inj]

end

/-! ### Runs -/

variable {F : Type} [DoubleArith F]

/-- The shares that were entered along a run, and those that were withdrawn. -/
def enteredAlong {T : Type} [UnorderedMap T UInt64 Order] (e : ExecutionEngine T)
    (log : List (OrderRecord F)) : Account :=
  total runOrder (fun e (r : OrderRecord F) => posting (e.resting.entered r)) e log

@[inherit_doc enteredAlong]
def withdrawnAlong {T : Type} [UnorderedMap T UInt64 Order] (e : ExecutionEngine T)
    (log : List (OrderRecord F)) : Account :=
  total runOrder (fun e (r : OrderRecord F) => posting (e.resting.withdrawn r)) e log

theorem volume_empty {T : Type} [UnorderedMap T UInt64 Order] :
    (ExecutionEngine.empty : ExecutionEngine T).volume = 0 := by
  funext s price
  have hnil : UnorderedMap.toList ((ExecutionEngine.empty : ExecutionEngine T).side s) = [] := by
    refine UnorderedMap.toList_eq_nil fun ref => ?_
    cases s <;> exact UnorderedMap.find?_empty ref
  rw [ExecutionEngine.volume, sharesAt, entriesOf, hnil]
  rfl

/-- **Levels are shares in less shares out.** After any log that is replayed to its end every level
of the collapsed books has what was entered at its price on its side less what was withdrawn
there, in 32-bit arithmetic, whatever wrapped on the way. In the natural numbers the account of
shares is right in all states of the run exactly if every execution and cancel is covered by the
order that it hits. -/
theorem levels_are_shares_in_less_shares_out {T : Type} [UnorderedMap T UInt64 Order]
    {log : List (OrderRecord F)} {answers : List Bool} {e : ExecutionEngine T}
    (hrun : replay? T log = some (answers, e)) :
    (∀ s price, e.levelAt s price
        = UInt32.ofNat (enteredAlong (ExecutionEngine.empty : ExecutionEngine T) log s price)
          - UInt32.ofNat (withdrawnAlong (ExecutionEngine.empty : ExecutionEngine T) log s price)) ∧
      ((∀ pre post, log = pre ++ post → ∀ s price,
          (replay T pre).volume s price
              + withdrawnAlong (ExecutionEngine.empty : ExecutionEngine T) pre s price
            = enteredAlong (ExecutionEngine.empty : ExecutionEngine T) pre s price) ↔
        Along runOrder (fun e r => r.action = .reduce → Covered e r)
          (ExecutionEngine.empty : ExecutionEngine T) log) := by
  obtain ⟨-, hout⟩ := ExecutionEngine.run?_eq_some_iff.mp hrun
  obtain ⟨-, rfl⟩ := Prod.mk.inj hout
  constructor
  · intro s price
    have hbalance := balance_run (Along.of_forall_mem (fun r (_ : r ∈ log) e => accounted_wrap e r)
      (ExecutionEngine.empty : ExecutionEngine T))
    rw [← map_total, ← map_total, volume_empty, map_zero, zero_add] at hbalance
    rw [levelAt_eq]
    exact eq_sub_of_add_eq (congrFun (congrFun hbalance s) price)
  · have hcovered : (fun (e : ExecutionEngine T) (r : OrderRecord F) =>
        r.action = .reduce → Covered e r) = Accounted :=
      funext₂ fun e r => propext (accounted_iff e r).symm
    rw [hcovered, ← balance_iff_along]
    refine forall_congr' fun pre => forall_congr' fun post => imp_congr_right fun _ => ?_
    rw [volume_empty, zero_add, funext_iff]
    exact forall_congr' fun s => funext_iff.symm

/-- Ten shares less eleven. -/
theorem overdrawn_level_wraps :
    let enter : OrderRecord Rat := ⟨1, 0, 10, 1, 'A'.toUInt8, true⟩
    let execute : OrderRecord Rat := ⟨1, 0, 11, 0, 'E'.toUInt8, true⟩
    ∃ (answers : List Bool) (e : ExecutionEngine (AssocList UInt64 Order)),
      replay? _ [enter, execute] = some (answers, e) ∧ e.levelAt .buy 1000 = 10 - 11 := by
  intro enter execute
  have hrun := ExecutionEngine.run?_eq_some_iff.mpr
    ⟨ExecutionEngine.along_fits_assocList ExecutionEngine.empty [enter, execute], rfl⟩
  refine ⟨_, _, hrun, ((levels_are_shares_in_less_shares_out hrun).1 .buy 1000).trans ?_⟩
  decide +kernel

end TradingDesk.Exec
