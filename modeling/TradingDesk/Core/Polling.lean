import Mathlib.Order.Nat

/-!
# TradingDesk.Core.Polling

**Loops that poll a stream.** A loop reads one element after the other for as long as a
condition holds of the element it has. `poll` is the loop with a bound on its rounds, and
it ends with an element if that is the first one that the condition fails for. Two
loops over one stream differ exactly if one of them stops earlier.
-/

namespace TradingDesk.Core

variable {α : Type*}

/-- From element `i` on, the first one that `again` fails for, within so many rounds. -/
def poll (again : α → Bool) (stream : Nat → α) : (rounds i : Nat) → Option α
  | 0, _ => none
  | rounds + 1, i => if again (stream i) then poll again stream rounds (i + 1) else some (stream i)

/-- The loop ends with this element. -/
def PollsTo (again : α → Bool) (stream : Nat → α) (a : α) : Prop :=
  ∃ rounds, poll again stream rounds 0 = some a

section

variable {again again' : α → Bool} {stream : Nat → α}

/-- **Run lemma.** Behind elements that the loop skips it ends with the next one. -/
theorem poll_eq_some_iff {rounds i : Nat} {a : α} :
    poll again stream rounds i = some a ↔
      ∃ n < rounds, again (stream (i + n)) = false ∧ (∀ m < n, again (stream (i + m)) = true) ∧
        stream (i + n) = a := by
  induction rounds generalizing i with
  | zero => simp [poll]
  | succ rounds ih =>
      rw [poll]
      by_cases hagain : again (stream i) = true
      · rw [if_pos hagain, ih]
        constructor
        · rintro ⟨n, hn, hstop, hskip, rfl⟩
          have hnext : i + 1 + n = i + (n + 1) := by omega
          refine ⟨n + 1, Nat.succ_lt_succ hn, hnext ▸ hstop, ?_, by rw [hnext]⟩
          intro m hm
          cases m with
          | zero => exact hagain
          | succ m =>
              have hskip := hskip m (Nat.lt_of_succ_lt_succ hm)
              rwa [show i + 1 + m = i + (m + 1) by omega] at hskip
        · rintro ⟨n, hn, hstop, hskip, rfl⟩
          cases n with
          | zero =>
              rw [Nat.add_zero, hagain] at hstop
              cases hstop
          | succ n =>
              have hnext : i + (n + 1) = i + 1 + n := by omega
              refine ⟨n, Nat.lt_of_succ_lt_succ hn, hnext ▸ hstop, ?_, by rw [hnext]⟩
              intro m hm
              have hskip := hskip (m + 1) (Nat.succ_lt_succ hm)
              rwa [show i + (m + 1) = i + 1 + m by omega] at hskip
      · rw [if_neg hagain, Option.some.injEq]
        have hstop : again (stream i) = false := eq_false_of_ne_true hagain
        constructor
        · rintro rfl
          exact ⟨0, Nat.succ_pos _, hstop, fun m hm => absurd hm (Nat.not_lt_zero m), rfl⟩
        · rintro ⟨n, -, -, hskip, rfl⟩
          cases n with
          | zero => rfl
          | succ n => exact absurd (hskip 0 (Nat.succ_pos n)) hagain

/-- A loop ends with the first element that its condition fails for. -/
theorem pollsTo_iff {a : α} :
    PollsTo again stream a ↔ ∃ n, again (stream n) = false ∧
      (∀ m < n, again (stream m) = true) ∧ stream n = a := by
  simp only [PollsTo, poll_eq_some_iff, Nat.zero_add]
  constructor
  · rintro ⟨_, n, -, h⟩
    exact ⟨n, h⟩
  · rintro ⟨n, h⟩
    exact ⟨n + 1, n, Nat.lt_succ_self n, h⟩

theorem PollsTo.stops {a : α} (h : PollsTo again stream a) : again a = false := by
  obtain ⟨n, hstop, -, rfl⟩ := pollsTo_iff.mp h
  exact hstop

/-- If the second loop stops nowhere in front of the first one, they end with the same
element. -/
theorem pollsTo_congr (hstop : ∀ a, again a = false → again' a = false)
    (hlate : ∀ n, again' (stream n) = false → again (stream n) = true →
      ∃ m < n, again (stream m) = false) (a : α) :
    PollsTo again' stream a ↔ PollsTo again stream a := by
  rw [pollsTo_iff, pollsTo_iff]
  refine exists_congr fun n => ⟨?_, ?_⟩
  · rintro ⟨hstops, hskip, rfl⟩
    have hgoes : ∀ m < n, again (stream m) = true := by
      intro m hm
      refine eq_true_of_ne_false fun hearlier => ?_
      exact Bool.false_ne_true ((hstop _ hearlier).symm.trans (hskip m hm))
    refine ⟨eq_false_of_ne_true fun hn => ?_, hgoes, rfl⟩
    obtain ⟨m, hm, hearlier⟩ := hlate n hstops hn
    exact Bool.false_ne_true (hearlier.symm.trans (hgoes m hm))
  · rintro ⟨hend, hgoes, rfl⟩
    refine ⟨hstop _ hend, fun m hm => eq_true_of_ne_false fun hstops => ?_, rfl⟩
    obtain ⟨m', hm', hearlier⟩ := hlate m hstops (hgoes m hm)
    exact Bool.false_ne_true (hearlier.symm.trans (hgoes m' (hm'.trans hm)))

/-- **When a loop that may stop earlier ends as the other one does.** If the second loop stops
wherever the first one does, it ends with elements that the first one stops at exactly if
it stops nowhere in front of it. -/
theorem pollsTo_stops_iff (hstop : ∀ a, again a = false → again' a = false) :
    (∀ a, PollsTo again' stream a → again a = false) ↔
      ∀ n, again' (stream n) = false → again (stream n) = true →
        ∃ m < n, again (stream m) = false := by
  constructor
  · intro hends n hstops hgoes
    -- the first element that the second loop stops at
    have hex : ∃ n, again' (stream n) = false := ⟨n, hstops⟩
    have hfirst : PollsTo again' stream (stream (Nat.find hex)) := by
      refine pollsTo_iff.mpr ⟨_, Nat.find_spec hex, fun m hm => ?_, rfl⟩
      exact eq_true_of_ne_false (Nat.find_min hex hm)
    have hend := hends _ hfirst
    refine ⟨Nat.find hex, lt_of_le_of_ne (Nat.find_min' hex hstops) fun heq => ?_, hend⟩
    rw [heq] at hend
    exact Bool.false_ne_true (hend.symm.trans hgoes)
  · intro hlate a ha
    exact ((pollsTo_congr hstop hlate a).mp ha).stops

end

end TradingDesk.Core
