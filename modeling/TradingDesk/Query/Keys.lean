import TradingDesk.Query.Snapshot

/-!
# TradingDesk.Query.Keys

**Snapshot keys as instants.** `snapshotKey stock u` is the key of the quarter of an
hour that starts at `u`. The prefix of a day matches the keys of the instants of that
day, keys of one day compare as the instants do, and what is behind the last
underscore of a key reads back as its instant.
-/

namespace TradingDesk.Query

open TradingDesk.Core
open TradingDesk.Utils

/-! ### Quarters of an hour -/

/-- `get_snapshot_timestamp`, on the seconds. -/
def quarter (t : Int) : Int := t - t.tmod 900

@[simp] theorem getSnapshotTimestamp_eq (w : Timespec) :
    getSnapshotTimestamp w = ⟨quarter w.sec, 0⟩ := rfl

theorem quarter_of_nonneg {t : Int} (h : 0 ≤ t) : quarter t = t - t % 900 := by
  rw [quarter, Int.tmod_eq_emod_of_nonneg h]

/-- Before the epoch, quarters are rounded up. -/
theorem quarter_of_nonpos {t : Int} (h : t ≤ 0) : quarter t ≤ 0 ∧ quarter t < t + 900 := by
  have hneg : t.tmod 900 = -(-t % 900) := by
    rw [← Int.tmod_eq_emod_of_nonneg (by omega), Int.neg_tmod, Int.neg_neg]
  rw [quarter, hneg]
  omega

/-- From the epoch on, a quarter starts on the day of its instants. -/
theorem quarter_div_day {t : Int} (h : 0 ≤ t) : quarter t / 86400 = t / 86400 := by
  rw [quarter_of_nonneg h]
  omega

theorem quarter_le {t : Int} (h : 0 ≤ t) : quarter t ≤ t := by
  rw [quarter_of_nonneg h]
  omega

theorem quarter_quarter {t : Int} (h : 0 ≤ t) : quarter (quarter t) = quarter t := by
  have hq := quarter_of_nonneg h
  rw [quarter_of_nonneg (by omega)]
  omega

/-- Before the epoch, quarters start at the epoch at the latest. -/
theorem nonneg_of_quarter_pos {t : Int} (h : 0 < quarter t) : 0 ≤ t := by
  by_contra hneg
  have hle := (quarter_of_nonpos (t := t) (by omega)).1
  omega

/-! ### Keys of instants -/

/-- The key of the quarter that starts at `u`. -/
def snapshotKey (stock : List UInt8) (u : Int) : List UInt8 :=
  stock ++ ascii "_orders_snap_" ++ toIsoExtendedStringUtc u

theorem makeSnapshotKey_eq (stock : List UInt8) (w : Timespec) :
    makeSnapshotKey stock w = snapshotKey stock (quarter w.sec) := rfl

/-- Rounding twice is rounding once. -/
theorem makeSnapshotKey_getSnapshotTimestamp {w : Timespec} (h : 0 ≤ w.sec) (stock : List UInt8) :
    makeSnapshotKey stock (getSnapshotTimestamp w) = makeSnapshotKey stock w := by
  rw [makeSnapshotKey_eq, makeSnapshotKey_eq, getSnapshotTimestamp_eq, quarter_quarter h]

/-- The years from 1970 to 9999 have four digits. -/
theorem fourDigitYear_of_nonneg {t : Int} (h0 : 0 ≤ t) (h : t / 86400 ≤ maxDay) :
    FourDigitYear t := by
  have hyear := (year_ofDays (t / 86400)).mpr ⟨by simp only [minDay]; omega, h⟩
  exact ⟨by omega, hyear.2⟩

/-- The digits of a date, written by `fmt` as by Karma. -/
theorem snapshotsOfDay_eq {ymd : Ymd} {n : Int} (h : ymd.toCivil = Civil.ofDays n)
    (stock : List UInt8) :
    snapshotsOfDay stock ymd
      = stock ++ ascii "_orders_snap_" ++ (dayText (Civil.ofDays n) ++ ['T'.toUInt8]) := by
  have hyear := ymd.year_range
  have hmonth := ymd.month_range
  have hday := ymd.day_range
  have hdash : ascii "-" = ['-'.toUInt8] := rfl
  have hT : ascii "T" = ['T'.toUInt8] := rfl
  rw [← h, snapshotsOfDay, dayText, Ymd.toCivil, (rightAlign_natText (by omega) (by decide)).1,
    (rightAlign_natText (by omega) (by decide)).1, (rightAlign_natText (by omega) (by decide)).1]
  simp only [Int.toNat_natCast, List.append_assoc, List.cons_append, List.nil_append, hdash, hT]

/-- **The keys of a day** are those of its instants. -/
theorem snapshotsOfDay_isPrefix_snapshotKey {ymd : Ymd} {n u : Int}
    (h : ymd.toCivil = Civil.ofDays n) (hu : FourDigitYear u) (stock : List UInt8) :
    snapshotsOfDay stock ymd <+: snapshotKey stock u ↔ u / 86400 = n := by
  have hyear := ymd.year_range
  have hn : FourDigitYear (n * 86400) := by
    rw [FourDigitYear, Int.mul_ediv_cancel _ (by decide), ← h, Ymd.toCivil]
    dsimp only
    omega
  rw [snapshotsOfDay_eq h, snapshotKey, List.prefix_append_right_inj, dayText_isPrefix_toIso hn hu]

theorem snapshotKey_lt_snapshotKey {t u : Int} (ht : FourDigitYear t) (hu : FourDigitYear u)
    (hday : t / 86400 = u / 86400) (stock : List UInt8) :
    snapshotKey stock t < snapshotKey stock u ↔ t < u := by
  rw [snapshotKey, snapshotKey, append_lt_append_left, toIso_lt_toIso ht hu hday]

/-- Different instants have different keys. -/
theorem snapshotKey_inj {t u : Int} (ht : FourDigitYear t) (hu : FourDigitYear u)
    {stock : List UInt8} (h : snapshotKey stock t = snapshotKey stock u) : t = u :=
  toIso_inj ht hu (List.append_cancel_left h)

/-! ### The instant in a key -/

theorem rfind_eq_none {c : Char} {s : List UInt8} (h : c.toUInt8 ∉ s) : rfind c s = none := by
  induction s with
  | nil => rfl
  | cons b s ih =>
      rw [List.mem_cons, not_or] at h
      rw [rfind, ih h.2]
      exact if_neg (Ne.symm h.1)

theorem rfind_append {c : Char} {s : List UInt8} (h : c.toUInt8 ∉ s) (p : List UInt8) :
    rfind c (p ++ c.toUInt8 :: s) = some p.length := by
  induction p with
  | nil =>
      rw [List.nil_append, rfind, rfind_eq_none h]
      exact if_pos rfl
  | cons b p ih => rw [List.cons_append, rfind, ih, List.length_cons]

/-- What is behind the last underscore of a key, whatever the stock is called. -/
theorem rfind_snapshotKey {u : Int} (hu : FourDigitYear u) (stock : List UInt8) :
    ∃ idx, rfind '_' (snapshotKey stock u) = some idx ∧
      (snapshotKey stock u).drop (idx + 1) = toIsoExtendedStringUtc u := by
  have hkey : snapshotKey stock u
      = (stock ++ ascii "_orders_snap") ++ '_'.toUInt8 :: toIsoExtendedStringUtc u := by
    have hsplit : ascii "_orders_snap_" = ascii "_orders_snap" ++ ['_'.toUInt8] := by decide
    rw [snapshotKey, hsplit]
    simp
  rw [hkey]
  refine ⟨_, rfind_append (underscore_notMem_toIso hu) _, ?_⟩
  rw [List.drop_length_add_append]
  rfl

/-! ### The requested day -/

/-- The components of the requested day are those of the UTC day. -/
theorem requestedDay_eq {w : Timespec} (hw : -2 ^ 40 < w.sec ∧ w.sec < 2 ^ 40)
    (hday : minDay ≤ w.sec / 86400 ∧ w.sec / 86400 ≤ maxDay) :
    ∃ ymd, requestedDay w = .ok ymd ∧ ymd.toCivil = Civil.ofDays (w.sec / 86400) := by
  obtain ⟨ymd, hymd, hcivil⟩ := Date.ymd_ofDay hday
  refine ⟨ymd, ?_, hcivil⟩
  rw [requestedDay, extractDate_eq hw.1 hw.2, if_pos hday, orElseThrow, ok_bind, hymd, orElseThrow]

/-! ### The choice among keys -/

theorem findMatch_of_all_above {best : List UInt8} {keys : List (List UInt8)}
    (h : ∀ key ∈ keys, best < key) (found : Option (List UInt8)) :
    findMatch best keys found = found := by
  cases keys with
  | nil => rfl
  | cons key keys => rw [findMatch, if_pos (h key List.mem_cons_self)]

/-- **What the loop finds** in a sorted list, if any key is not above the best one: the
last such key. -/
theorem findMatch_of_mem {best k : List UInt8} {keys : List (List UInt8)}
    (hsorted : keys.Pairwise (· < ·)) (hmem : k ∈ keys) (hk : ¬ best < k)
    (found : Option (List UInt8)) :
    ∃ key, findMatch best keys found = some key ∧ key ∈ keys ∧ ¬ best < key ∧
      ∀ k ∈ keys, ¬ best < k → ¬ key < k := by
  induction keys generalizing found k with
  | nil => cases hmem
  | cons key keys ih =>
      obtain ⟨hfirst, hrest⟩ := List.pairwise_cons.mp hsorted
      have hkey : ¬ best < key := by
        intro hbest
        rcases List.mem_cons.mp hmem with rfl | hmem
        · exact hk hbest
        · exact hk (List.lt_trans hbest (hfirst k hmem))
      rw [findMatch, if_neg hkey]
      -- this key is found, unless a later one is not above the best either
      by_cases hlater : ∃ k' ∈ keys, ¬ best < k'
      · obtain ⟨k', hmem', hk'⟩ := hlater
        obtain ⟨m, hfind, hm, hbest, hlast⟩ := ih hrest hmem' hk' (some key)
        refine ⟨m, hfind, List.mem_cons_of_mem _ hm, hbest, fun k'' hk'' hbest'' => ?_⟩
        rcases List.mem_cons.mp hk'' with rfl | hk''
        · exact List.lt_asymm (hfirst m hm)
        · exact hlast k'' hk'' hbest''
      · -- the loop breaks here or at the end
        have hall : ∀ k' ∈ keys, best < k' := fun k' hk' => by
          by_contra hnot
          exact hlater ⟨k', hk', hnot⟩
        refine ⟨key, findMatch_of_all_above hall _,
          List.mem_cons_self, hkey, fun k' hk' hbest' => ?_⟩
        rcases List.mem_cons.mp hk' with rfl | hk'
        · exact List.lt_irrefl _
        · exact absurd (hall k' hk') hbest'

end TradingDesk.Query
