import TradingDesk.Core.Machine
import TradingDesk.Simulator.Balance
import TradingDesk.Simulator.Extremes

/-!
# TradingDesk.Simulator.Series

**The quotes of one generator**, call after call. Every call starts from `_last`, and no call
changes it: whatever a quote closed at, the next one opens at the initial price again. So the
quotes are continuous if the draws of every call cancel out, each of them with its weight.
-/

namespace TradingDesk.Simulator

open TradingDesk.Core

namespace QuoteGenerator

variable {g g' : QuoteGenerator} {volume : UInt32} {v : Values}

/-- A call, as a step. Without a quote, nothing has changed. -/
def step (g : QuoteGenerator) (volume : UInt32) : Option Values × QuoteGenerator :=
  match g.call volume with
  | none => (none, g)
  | some (v, g) => (some v, g)

/-- A quote opens at `_last` and closes at the price that was assigned last. -/
theorem call_ends (hvolume : 2 ≤ volume.toNat) (h : g.call volume = some (v, g')) :
    v.open = g.last ∧ (g.assignments volume).getLast?.map Prod.snd = some v.close ∧
      g'.last = g.last := by
  obtain ⟨f, hprices, -, -, -, hopen, hclose, rfl⟩ := call_eq_some h
  have hlast : 0 < g.last := by
    by_contra hlast
    rw [prices_eq_none hvolume hlast] at hprices
    cases hprices
  obtain ⟨f', hprices', hf⟩ := g.prices_isFilling hvolume hlast
  obtain ⟨f'', hprices'', hvalues, -⟩ := g.prices_isDisplaced hvolume hlast
  obtain rfl : f = f' := Option.some.inj (hprices.symm.trans hprices')
  obtain rfl : f = f'' := Option.some.inj (hprices.symm.trans hprices'')
  obtain ⟨x, hx⟩ := g.getLast_assignments hvolume
  refine ⟨?_, ?_, rfl⟩
  · rw [List.head?_eq_getElem?, hf.front, ends_front hvolume] at hopen
    exact (Option.some.inj hopen).symm
  · have hlen : f.values.length = volume.toNat := by rw [hvalues]; simp
    rw [List.getLast?_eq_getElem?, hlen, hvalues,
      getElem?_assignAll_getLast hx (by rw [List.length_replicate]; omega)] at hclose
    rw [hx, ← hclose]
    rfl

theorem step_last (g : QuoteGenerator) (volume : UInt32) : (g.step volume).2.last = g.last := by
  rw [step]
  cases hcall : g.call volume with
  | none => rfl
  | some r =>
      obtain ⟨v, g'⟩ := r
      obtain ⟨f, -, -, -, -, -, -, rfl⟩ := call_eq_some hcall
      rfl

/-- **Run lemma.** After any quotes, the generator still starts from the initial price. -/
theorem run_last (g : QuoteGenerator) (volumes : List UInt32) :
    (run step g volumes).last = g.last := by
  induction volumes generalizing g with
  | nil => rfl
  | cons volume volumes ih => rw [run_cons, ih, step_last]

end QuoteGenerator

end TradingDesk.Simulator
