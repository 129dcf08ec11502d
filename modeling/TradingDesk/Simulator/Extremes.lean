import TradingDesk.Simulator.Displacement

/-!
# TradingDesk.Simulator.Extremes

**High and low.** The bounds that `fill_values` returns are the extremes of all prices that
were assigned to the vector, those of the two ends included. Some of these are overwritten:
the price drawn for the last cell always is, and so is the middle of a range whose first half
has cells of its own. The high and the low are prices of the vector exactly if no price that
was overwritten lies beyond all that were kept.
-/

namespace TradingDesk.Simulator

open TradingDesk.Core

namespace QuoteGenerator

/-- All assignments of `operator()` to the cells of its vector, in order. -/
def assignments (g : QuoteGenerator) (volume : UInt32) : List (ℕ × ℚ) :=
  let back := max (1 / 10000) (g.last + g.draws.value g.drawn * 2)
  (0, g.last) :: (volume.toNat - 1, back) ::
    displacements g.draws.value 0 volume.toNat g.last back (g.drawn + 1) 1

variable {g g' : QuoteGenerator} {volume : UInt32} {v : Values}

/-! ### The assignments of a call -/

/-- They are to cells of the vector. -/
theorem assignments_lt (hvolume : 2 ≤ volume.toNat) :
    ∀ a ∈ g.assignments volume, a.1 < volume.toNat := by
  intro a ha
  rcases List.mem_cons.mp ha with rfl | ha
  · show 0 < volume.toNat
    omega
  · rcases List.mem_cons.mp ha with rfl | ha
    · show volume.toNat - 1 < volume.toNat
      omega
    · exact ((displacements_isDisplacing _ _ _ _ _ le_rfl (by omega)).inside a ha).2

/-- Every cell is assigned. -/
theorem assignments_cover (hvolume : 2 ≤ volume.toNat) :
    ∀ i < volume.toNat, i ∈ (g.assignments volume).map Prod.fst := by
  intro i hi
  rcases Nat.eq_zero_or_pos i with rfl | hpos
  · exact List.mem_cons_self
  · exact List.mem_cons_of_mem _ (List.mem_cons_of_mem _
      ((displacements_isDisplacing _ _ _ _ _ le_rfl (by omega)).covers i hpos hi))

/-- The last one is to the last cell. -/
theorem getLast_assignments (hvolume : 2 ≤ volume.toNat) :
    ∃ x, (g.assignments volume).getLast? = some (volume.toNat - 1, x) := by
  have hends := (displacements_isDisplacing g.draws.value g.last
    (max (1 / 10000) (g.last + g.draws.value g.drawn * 2)) (g.drawn + 1) 1 le_rfl
    (show 0 + 2 ≤ volume.toNat by omega)).ends
  obtain ⟨⟨i, x⟩, hlast, rfl⟩ := Option.map_eq_some_iff.mp hends
  obtain ⟨log, hlog⟩ := List.getLast?_eq_some_iff.mp hlast
  refine ⟨x, ?_⟩
  rw [assignments, hlog, ← List.cons_append, ← List.cons_append, List.getLast?_concat]

/-- **The prices of a call**, as its assignments leave them, and their extremes. -/
theorem prices_isDisplaced (hvolume : 2 ≤ volume.toNat) (hlast : 0 < g.last) :
    ∃ f, g.prices volume = some f ∧
      f.values = assignAll (List.replicate volume.toNat 0) (g.assignments volume) ∧
      IsLeast {x | x ∈ (g.assignments volume).map Prod.snd} f.min ∧
      IsGreatest {x | x ∈ (g.assignments volume).map Prod.snd} f.max := by
  obtain ⟨back, hdrawn, hback0, hback⟩ := g.ends_back hvolume
  obtain ⟨f, hcall, hf⟩ :=
    fillValues_isDisplaced g.draws.value volume.toNat_lt (g.drawn + 1) 1 le_rfl
    (show 0 + 2 ≤ volume.toNat by omega) (ends_front hvolume) hlast hback hback0
  have hpriced : {x | x ∈ (g.assignments volume).map Prod.snd} = priced g.last back
      (displacements g.draws.value 0 volume.toNat g.last back (g.drawn + 1) 1) := by
    ext x
    simp only [assignments, ← hdrawn, priced, List.map_cons, List.mem_cons, Set.mem_ofPred_eq]
  rw [hpriced, prices, guard, if_pos (by omega)]
  refine ⟨f, hcall, ?_, hf.least, hf.greatest⟩
  rw [hf.values, hdrawn]
  rfl

/-- Without a positive price to start from, the first assert fails. -/
theorem prices_eq_none (hvolume : 2 ≤ volume.toNat) (hlast : ¬ 0 < g.last) :
    g.prices volume = none := by
  rw [prices, guard, if_pos (by omega)]
  show fillValues _ _ _ _ _ _ = none
  have hdst : ¬ (volume.toNat - 0) % 2 ^ 32 < 2 := by
    have := volume.toNat_lt
    rw [Nat.sub_zero, Nat.mod_eq_of_lt this]
    omega
  rw [fillValues]
  simp only [dif_neg hdst, ends_front hvolume, Option.bind_eq_bind, Option.bind_some, guard,
    if_neg hlast]
  rfl

/-! ### What a call returns -/

/-- Inversion of a call. -/
theorem call_eq_some (h : g.call volume = some (v, g')) :
    ∃ f, g.prices volume = some f ∧ v.volume = f.values.length ∧ v.high = f.max ∧ v.low = f.min ∧
      f.values.head? = some v.open ∧ f.values.getLast? = some v.close ∧
      g' = { g with drawn := f.drawn } := by
  simp only [call, Option.bind_eq_bind, Option.bind_eq_some_iff, Option.pure_def] at h
  obtain ⟨f, hprices, -, -, «open», hopen, close, hclose, heq⟩ := h
  obtain ⟨rfl, rfl⟩ := Prod.mk.inj (Option.some.inj heq)
  exact ⟨f, hprices, rfl, rfl, rfl, hopen, hclose, rfl⟩

/-- The quote is that of the vector: its first and last price, its highest and its lowest. -/
def AttainsExtremes (g : QuoteGenerator) (volume : UInt32) : Prop :=
  ∃ f v g', g.prices volume = some f ∧ g.call volume = some (v, g') ∧
    f.values.head? = some v.open ∧ f.values.getLast? = some v.close ∧
    IsGreatest {x | x ∈ f.values} v.high ∧ IsLeast {x | x ∈ f.values} v.low

/-- A call with a positive price to start from returns. -/
theorem exists_call (hvolume : 2 ≤ volume.toNat) (hlast : 0 < g.last) :
    ∃ v g', g.call volume = some (v, g') := by
  obtain ⟨f, hprices, hf⟩ := g.prices_isFilling hvolume hlast
  obtain ⟨v, hcall, -⟩ := call_isBar hvolume hprices hf
  exact ⟨v, _, hcall⟩

/-- **High and low are attained exactly if nothing beyond them was overwritten**: the price that the
generator starts from is positive, and of all prices that the draws lead to, none that is
overwritten is above all that are kept, or below all of them. -/
theorem high_low_attained_iff (hvolume : 2 ≤ volume.toNat) :
    g.AttainsExtremes volume ↔ 0 < g.last ∧ ∀ x ∈ overwritten (g.assignments volume),
      (∃ y ∈ kept (g.assignments volume), x ≤ y) ∧ ∃ y ∈ kept (g.assignments volume), y ≤ x := by
  by_cases hlast : 0 < g.last
  swap
  · refine iff_of_false ?_ fun h => hlast h.1
    rintro ⟨f, v, g', hprices, -⟩
    rw [prices_eq_none hvolume hlast] at hprices
    cases hprices
  obtain ⟨f, hprices, hvalues, hleast, hgreatest⟩ := g.prices_isDisplaced hvolume hlast
  have hkept : {x | x ∈ f.values} = {x | x ∈ kept (g.assignments volume)} := by
    ext x
    show x ∈ f.values ↔ x ∈ kept (g.assignments volume)
    rw [hvalues]
    refine mem_assignAll_of_covers ?_ ?_
    · rw [List.length_replicate]
      exact g.assignments_lt hvolume
    · rw [List.length_replicate]
      exact g.assignments_cover hvolume
  rw [forall₂_and, ← isGreatest_kept_iff hgreatest, ← isLeast_kept_iff hleast, ← hkept]
  constructor
  · rintro ⟨f', v, g', hprices', hcall, -, -, hhigh, hlow⟩
    obtain ⟨f'', hprices'', -, hmax, hmin, -⟩ := call_eq_some hcall
    obtain rfl : f = f' := Option.some.inj (hprices.symm.trans hprices')
    obtain rfl : f = f'' := Option.some.inj (hprices.symm.trans hprices'')
    exact ⟨hlast, hmax ▸ hhigh, hmin ▸ hlow⟩
  · rintro ⟨-, hhigh, hlow⟩
    obtain ⟨v, g', hcall⟩ := exists_call hvolume hlast
    obtain ⟨f', hprices', -, hmax, hmin, hopen, hclose, -⟩ := call_eq_some hcall
    obtain rfl : f = f' := Option.some.inj (hprices.symm.trans hprices')
    exact ⟨f, v, g', hprices, hcall, hopen, hclose, hmax ▸ hhigh, hmin ▸ hlow⟩

/-! ### Two units -/

/-- Of two units, the second one's price is drawn, and then overwritten. -/
theorem assignments_two (g : QuoteGenerator) :
    g.assignments 2 = [(0, g.last), (1, max (1 / 10000) (g.last + g.draws.value g.drawn * 2)),
      (1, newValue g.last (max (1 / 10000) (g.last + g.draws.value g.drawn * 2))
        (g.draws.value (g.drawn + 1)) 1)] := by
  have hlog := @displacements_eq g.draws.value 0 2 (g.drawn + 1) 1 g.last
    (max (1 / 10000) (g.last + g.draws.value g.drawn * 2)) le_rfl 1 (by decide) _ rfl _ rfl _ rfl
  rw [assignments]
  exact congrArg (_ :: _ :: ·) hlog

/-- A generator that starts from 10 and draws 1, then 1 again or 0. -/
def fromTen (again : Bool) : QuoteGenerator :=
  .make 10 4 ⟨fun n => if n = 0 ∨ again = true then 1 else 0, fun n => by
    split
    · norm_num
    · norm_num⟩

theorem assignments_fromTen (again : Bool) :
    (fromTen again).assignments 2 = [(0, 10), (1, 12), (1, if again then 12 else 11)] := by
  have hvalue : ∀ n, (fromTen again).draws.value n = if n = 0 ∨ again = true then 1 else 0 :=
    fun _ => rfl
  rw [assignments_two, hvalue, hvalue, show (fromTen again).last = 10 from rfl,
    show (fromTen again).drawn = 0 from rfl]
  cases again with
  | false => norm_num [newValue]
  | true => norm_num [newValue]

/-- With 12 overwritten by 12, the high is a price of the vector. -/
theorem high_low_attained_twelve : (fromTen true).AttainsExtremes 2 := by
  refine (high_low_attained_iff (by decide)).mpr ⟨by norm_num [fromTen, make], ?_⟩
  rw [assignments_fromTen]
  norm_num [overwritten, kept]

/-- With 12 overwritten by 11, it is not. -/
theorem high_not_attained_eleven :
    (∃ g', (fromTen false).call 2 = some (⟨2, 10, 12, 10, 11⟩, g')) ∧
      ¬ (fromTen false).AttainsExtremes 2 := by
  have hvalue : newValue 10 12 ((fromTen false).draws.value 1) 1 = 11 := by
    rw [show (fromTen false).draws.value 1 = 0 from rfl]
    norm_num [newValue]
  have hends : (fromTen false).ends 2 = [10, 12] := by
    rw [ends, show (fromTen false).draws.value (fromTen false).drawn = 1 from rfl,
      show (fromTen false).last = 10 from rfl,
      show max (1 / 10000) (10 + 1 * 2) = (12 : ℚ) by norm_num]
    rfl
  have hfill := @fillValues_eq (fromTen false).draws.value [10, 12] 1 0 2 1 10 12 (by decide)
    (by decide) rfl (by norm_num) rfl (by norm_num) 1 (by decide) _ rfl
  rw [hvalue] at hfill
  have hprices : (fromTen false).prices 2 = some ⟨[10, 11], 2, 10, 12⟩ := by
    rw [prices, guard, if_pos (by decide), hends]
    refine hfill.trans ?_
    norm_num [displace]
  have hcall : (fromTen false).call 2
      = some (⟨2, 10, 12, 10, 11⟩, { fromTen false with drawn := 2 }) := by
    rw [call, hprices]
    norm_num
  refine ⟨⟨_, hcall⟩, ?_⟩
  rintro ⟨f, v, g', hprices', hcall', -, -, hhigh, -⟩
  obtain rfl : _ = f := Option.some.inj (hprices.symm.trans hprices')
  obtain ⟨rfl, -⟩ := Prod.mk.inj (Option.some.inj (hcall.symm.trans hcall'))
  have hmem : (12 : ℚ) ∈ ([10, 11] : List ℚ) := hhigh.1
  norm_num at hmem

end QuoteGenerator

end TradingDesk.Simulator
