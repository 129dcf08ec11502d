import TradingDesk.Exec.Resting

/-!
# TradingDesk.Exec.Ledger

**The cumulative ledger of the feed.** The feed's documentation says what a
history of messages means order by order: an order is introduced once, with a
number of shares; every execution and cancel takes shares from it, and the effects
are cumulative; it is dead once no shares are left, or once it is deleted or
replaced; a replacement keeps the side of the order it replaces.

`Live h ref s p n` is that reading, and it mentions no table and no engine:
after the history `h` the order `ref` is live on side `s`, at price `p`, with `n`
shares left. `implements_ledger_iff` shows that on a well-formed history the
engine holds the live orders and no others, unless a table throws.
-/

namespace TradingDesk.Exec

open TradingDesk.Core

variable {F : Type} [DoubleArith F]

/-! ### What a record says about a reference -/

/-- The references a record introduces. -/
def OrderRecord.introduces {F : Type} (r : OrderRecord F) : List UInt64 :=
  match r.action with
  | .add => [r.reference]
  | .replace => [r.newReference]
  | _ => []

/-- The references a history introduces, in order. -/
def introduced {F : Type} (h : List (OrderRecord F)) : List UInt64 :=
  h.flatMap OrderRecord.introduces

/-- The record deletes or replaces `ref`. -/
def OrderRecord.Ends {F : Type} (r : OrderRecord F) (ref : UInt64) : Prop :=
  (r.action = .delete ∨ r.action = .replace) ∧ r.reference = ref

/-- The shares a record takes from `ref`. -/
def OrderRecord.taken {F : Type} (r : OrderRecord F) (ref : UInt64) : Nat :=
  if r.action = .reduce ∧ r.reference = ref then r.shares.toNat else 0

/-- The shares a history takes from `ref`. -/
def taken {F : Type} (h : List (OrderRecord F)) (ref : UInt64) : Nat :=
  (h.map fun r => r.taken ref).sum

/-- An order introduced with `k` shares still stands with `n` of them after `h`. -/
structure Standing {F : Type} (h : List (OrderRecord F)) (ref : UInt64) (k n : Nat) : Prop where
  /-- It was neither deleted nor replaced. -/
  notEnded : ∀ r ∈ h, ¬ r.Ends ref
  /-- What is left is what was there less what was taken. -/
  shares : n + taken h ref = k
  /-- Something is left. -/
  pos : 0 < n

/-- After the history the order `ref` is live on side `s` at price `p` with `n`
shares. -/
inductive Live : List (OrderRecord F) → UInt64 → Side → UInt32 → Nat → Prop
  /-- Introduced by an add, on the side the add names. -/
  | add {pre post : List (OrderRecord F)} {r : OrderRecord F} {n : Nat} (hr : r.action = .add)
      (h : Standing post r.reference r.shares.toNat n) :
      Live (pre ++ r :: post) r.reference r.side (ExecutionEngine.convertToFix r.price) n
  /-- Introduced as the replacement of an order live at that point, on its side. -/
  | replace {pre post : List (OrderRecord F)} {r : OrderRecord F} {s : Side} {p' : UInt32}
      {n n' : Nat} (hr : r.action = .replace) (hlive : Live pre r.reference s p' n')
      (h : Standing post r.newReference r.shares.toNat n) :
      Live (pre ++ r :: post) r.newReference s (ExecutionEngine.convertToFix r.price) n

/-- What the feed promises about its own history. -/
structure WellFormedFeed (h : List (OrderRecord F)) : Prop where
  /-- Every reference is introduced at most once. -/
  introducedOnce : (introduced h).Nodup
  /-- Orders are introduced with shares. -/
  sharesPos : ∀ r ∈ h, r.action = .add ∨ r.action = .replace → 0 < r.shares.toNat
  /-- Nothing takes more shares from a live order than it has left. -/
  noOverdraw : ∀ pre r post, h = pre ++ r :: post → r.action = .reduce →
    ∀ s p n, Live pre r.reference s p n → r.shares.toNat ≤ n

/-! ### One more record -/

omit [DoubleArith F] in
theorem standing_nil {ref : UInt64} {k n : Nat} :
    Standing ([] : List (OrderRecord F)) ref k n ↔ n = k ∧ 0 < n :=
  ⟨fun h => ⟨h.shares, h.pos⟩, fun h => ⟨by simp, h.1, h.2⟩⟩

omit [DoubleArith F] in
theorem standing_snoc {h : List (OrderRecord F)} {r : OrderRecord F} {ref : UInt64} {k n : Nat} :
    Standing (h ++ [r]) ref k n ↔
      Standing h ref k (n + r.taken ref) ∧ ¬ r.Ends ref ∧ 0 < n := by
  have htaken : taken (h ++ [r]) ref = taken h ref + r.taken ref := by
    simp [taken]
  constructor
  · intro hstanding
    obtain ⟨hne, hs, hp⟩ := hstanding
    refine ⟨⟨fun x hx => hne x (by simp [hx]), ?_, by omega⟩, hne r (by simp), hp⟩
    omega
  · intro hstanding
    obtain ⟨⟨hne, hs, -⟩, hr, hp⟩ := hstanding
    refine ⟨fun x hx => ?_, by omega, hp⟩
    rcases List.mem_append.mp hx with hx | hx
    · exact hne x hx
    · rw [List.mem_singleton.mp hx]
      exact hr

/-- A position of a history extended by one record is the new record's, or one of
the old history's. -/
theorem split_snoc {α : Type} {h pre post : List α} {x r : α} (heq : pre ++ x :: post = h ++ [r]) :
    (pre = h ∧ x = r ∧ post = []) ∨ ∃ post', post = post' ++ [r] ∧ h = pre ++ x :: post' := by
  rcases List.eq_nil_or_concat post with rfl | ⟨post', y, rfl⟩
  · obtain ⟨rfl, hx⟩ := List.append_inj' heq rfl
    exact Or.inl ⟨rfl, by simpa using hx, rfl⟩
  · rw [List.concat_eq_append, ← List.cons_append, ← List.append_assoc] at heq
    obtain ⟨rfl, hy⟩ := List.append_inj' heq rfl
    obtain rfl : y = r := by simpa using hy
    exact Or.inr ⟨post', List.concat_eq_append, rfl⟩

/-- **Step rule of the ledger.** After one more record an order is live because
the record introduced it, or because it was live before and the record left some
of it. -/
theorem live_snoc {h : List (OrderRecord F)} {r : OrderRecord F} {ref : UInt64} {s : Side}
    {p : UInt32} {n : Nat} :
    Live (h ++ [r]) ref s p n ↔
      (p = ExecutionEngine.convertToFix r.price ∧ n = r.shares.toNat ∧ 0 < n ∧
        ((r.action = .add ∧ ref = r.reference ∧ s = r.side) ∨
          (r.action = .replace ∧ ref = r.newReference ∧ ∃ p' n', Live h r.reference s p' n'))) ∨
      (Live h ref s p (n + r.taken ref) ∧ ¬ r.Ends ref ∧ 0 < n) := by
  constructor
  · intro hl
    generalize hh : h ++ [r] = h' at hl
    cases hl with
    | add hr hst =>
        -- the introducing record is the last one, or it is one of `h`
        rcases split_snoc hh.symm with ⟨rfl, rfl, rfl⟩ | ⟨post', rfl, rfl⟩
        · obtain ⟨hn, hpos⟩ := standing_nil.mp hst
          exact Or.inl ⟨rfl, hn, hpos, Or.inl ⟨hr, rfl, rfl⟩⟩
        · obtain ⟨hst, hend, hpos⟩ := standing_snoc.mp hst
          exact Or.inr ⟨.add hr hst, hend, hpos⟩
    | replace hr hlive hst =>
        rcases split_snoc hh.symm with ⟨rfl, rfl, rfl⟩ | ⟨post', rfl, rfl⟩
        · obtain ⟨hn, hpos⟩ := standing_nil.mp hst
          exact Or.inl ⟨rfl, hn, hpos, Or.inr ⟨hr, rfl, _, _, hlive⟩⟩
        · obtain ⟨hst, hend, hpos⟩ := standing_snoc.mp hst
          exact Or.inr ⟨.replace hr hlive hst, hend, hpos⟩
  · intro hlive'
    rcases hlive' with ⟨rfl, rfl, hpos,
      ⟨hr, rfl, rfl⟩ | ⟨hr, rfl, p', n', hlive⟩⟩ | ⟨hlive, hend, hpos⟩
    · exact .add hr (standing_nil.mpr ⟨rfl, hpos⟩)
    · exact .replace hr hlive (standing_nil.mpr ⟨rfl, hpos⟩)
    · generalize hn : n + r.taken ref = n0 at hlive
      cases hlive with
      | add hr hst =>
          rw [List.append_assoc, List.cons_append]
          exact .add hr (standing_snoc.mpr ⟨hn ▸ hst, hend, hpos⟩)
      | replace hr hlive hst =>
          rw [List.append_assoc, List.cons_append]
          exact .replace hr hlive (standing_snoc.mpr ⟨hn ▸ hst, hend, hpos⟩)

theorem Live.pos {h : List (OrderRecord F)} {ref : UInt64} {s : Side} {p : UInt32} {n : Nat}
    (hl : Live h ref s p n) : 0 < n := by
  cases hl with
  | add hr hst => exact hst.pos
  | replace hr hlive hst => exact hst.pos

section StepRules

variable {h : List (OrderRecord F)} {r : OrderRecord F} {ref : UInt64} {s : Side} {p : UInt32}
  {n : Nat}

theorem live_snoc_add (hr : r.action = .add) :
    Live (h ++ [r]) ref s p n ↔
      (ref = r.reference ∧ s = r.side ∧ p = ExecutionEngine.convertToFix r.price ∧
        n = r.shares.toNat ∧ 0 < n) ∨ Live h ref s p n := by
  have hend : ¬ r.Ends ref := by simp [OrderRecord.Ends, hr]
  have htaken : r.taken ref = 0 := by simp [OrderRecord.taken, hr]
  rw [live_snoc, htaken]
  constructor
  · intro hlive
    rcases hlive with ⟨hp, hn, hpos, ⟨-, href, hs⟩ | ⟨hu, -⟩⟩ | ⟨hl, -, -⟩
    · exact Or.inl ⟨href, hs, hp, hn, hpos⟩
    · simp [hr] at hu
    · exact Or.inr hl
  · intro hlive
    rcases hlive with ⟨href, hs, hp, hn, hpos⟩ | hl
    · exact Or.inl ⟨hp, hn, hpos, Or.inl ⟨hr, href, hs⟩⟩
    · exact Or.inr ⟨hl, hend, hl.pos⟩

theorem live_snoc_replace (hr : r.action = .replace) :
    Live (h ++ [r]) ref s p n ↔
      (ref = r.newReference ∧ (∃ p' n', Live h r.reference s p' n') ∧
        p = ExecutionEngine.convertToFix r.price ∧ n = r.shares.toNat ∧ 0 < n) ∨
      (Live h ref s p n ∧ r.reference ≠ ref) := by
  have hend : r.Ends ref ↔ r.reference = ref := by simp [OrderRecord.Ends, hr]
  have htaken : r.taken ref = 0 := by simp [OrderRecord.taken, hr]
  rw [live_snoc, htaken, hend]
  constructor
  · intro hlive'
    rcases hlive' with ⟨hp, hn, hpos, ⟨ha, -⟩ | ⟨-, href, hlive⟩⟩ | ⟨hl, hne, -⟩
    · simp [hr] at ha
    · exact Or.inl ⟨href, hlive, hp, hn, hpos⟩
    · exact Or.inr ⟨hl, hne⟩
  · intro hlive'
    rcases hlive' with ⟨href, hlive, hp, hn, hpos⟩ | ⟨hl, hne⟩
    · exact Or.inl ⟨hp, hn, hpos, Or.inr ⟨hr, href, hlive⟩⟩
    · exact Or.inr ⟨hl, hne, hl.pos⟩

/-- Records that introduce nothing only take from orders or end them. -/
theorem live_snoc_of_introduces_nothing (ha : r.action ≠ .add) (hu : r.action ≠ .replace) :
    Live (h ++ [r]) ref s p n ↔ Live h ref s p (n + r.taken ref) ∧ ¬ r.Ends ref ∧ 0 < n := by
  rw [live_snoc]
  simp [ha, hu]

end StepRules

/-- A live order was introduced. -/
theorem Live.mem_introduced {h : List (OrderRecord F)} {ref : UInt64} {s : Side} {p : UInt32}
    {n : Nat} (hl : Live h ref s p n) : ref ∈ introduced h := by
  cases hl with
  | add hr hst => simp [introduced, OrderRecord.introduces, hr]
  | replace hr hlive hst => simp [introduced, OrderRecord.introduces, hr]

theorem not_live_nil {ref : UInt64} {s : Side} {p : UInt32} {n : Nat} :
    ¬ Live ([] : List (OrderRecord F)) ref s p n :=
  fun hl => by simpa [introduced] using hl.mem_introduced

/-- A well-formed history is well-formed up to every point. -/
theorem WellFormedFeed.of_append {h h' : List (OrderRecord F)}
    (hw : WellFormedFeed (h ++ h')) : WellFormedFeed h where
  introducedOnce := by
    have := hw.introducedOnce
    rw [introduced, List.flatMap_append] at this
    exact this.of_append_left
  sharesPos x hx := hw.sharesPos x (by simp [hx])
  noOverdraw pre x post heq := hw.noOverdraw pre x (post ++ h') (by simp [heq])

theorem WellFormedFeed.nil : WellFormedFeed ([] : List (OrderRecord F)) where
  introducedOnce := List.nodup_nil
  sharesPos _ hx := nomatch hx
  noOverdraw pre x post heq := absurd heq (by simp)

/-- A well-formed history can be extended by a record that introduces no reference
again, and none without shares, and takes no more from a live order than it has. -/
theorem WellFormedFeed.snoc {h : List (OrderRecord F)} {r : OrderRecord F}
    (hw : WellFormedFeed h) (hone : (introduced (h ++ [r])).Nodup)
    (hpos : r.action = .add ∨ r.action = .replace → 0 < r.shares.toNat)
    (hcov : r.action = .reduce → ∀ s p n, Live h r.reference s p n → r.shares.toNat ≤ n) :
    WellFormedFeed (h ++ [r]) where
  introducedOnce := hone
  sharesPos x hx := by
    rcases List.mem_append.mp hx with hx | hx
    · exact hw.sharesPos x hx
    · rw [List.mem_singleton.mp hx]
      exact hpos
  noOverdraw pre x post heq := by
    rcases split_snoc heq.symm with ⟨rfl, rfl, -⟩ | ⟨post', -, hh⟩
    · exact hcov
    · exact hw.noOverdraw pre x post' hh

/-- What the last record introduces is new. -/
theorem WellFormedFeed.fresh {h : List (OrderRecord F)} {r : OrderRecord F}
    (hw : WellFormedFeed (h ++ [r])) {ref : UInt64} (hr : ref ∈ r.introduces) :
    ref ∉ introduced h := by
  have := hw.introducedOnce
  rw [introduced, List.flatMap_append, List.nodup_append'] at this
  intro hmem
  exact this.2.2 hmem (by simpa using hr)

end TradingDesk.Exec
