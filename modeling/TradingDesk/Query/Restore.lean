import Mathlib.Data.List.Perm.Subperm
import Mathlib.Order.Bounds.Defs
import TradingDesk.Query.Keys

/-!
# TradingDesk.Query.Restore

**Which snapshot a restore loads.** A restore asks for the keys of a day and takes the last
one that is not above the key of its own quarter. `QuarterKeys` is what the stored keys
have to be for that to be the latest snapshot that can be used: keys of quarters of that
day. There are 96 of them at most, so none is lost to the limit of the read. Where all of
them are too late, the restore makes a string of a null pointer.
-/

namespace TradingDesk.Query

open TradingDesk.Core
open TradingDesk.Exec (Order ExecutionEngine)
open TradingDesk.Utils

/-! ### Days and their keys -/

/-- The instant is in one of the years 1970 to 9999. -/
structure Supported (t : Int) : Prop where
  nonneg : 0 ≤ t
  le_maxDay : t / 86400 ≤ maxDay

theorem Supported.fourDigitYear {t : Int} (h : Supported t) : FourDigitYear t :=
  fourDigitYear_of_nonneg h.nonneg h.le_maxDay

theorem Supported.of_day {t u : Int} (h : Supported t) (hday : u / 86400 = t / 86400) :
    Supported u := by
  obtain ⟨h0, hmax⟩ := h
  exact ⟨by omega, by omega⟩

theorem Supported.quarter {t : Int} (h : Supported t) : Supported (quarter t) :=
  h.of_day (quarter_div_day h.nonneg)

/-- The requested day is the UTC day of the instant. -/
theorem Supported.requestedDay {w : Timespec} (h : Supported w.sec) :
    ∃ ymd, requestedDay w = .ok ymd ∧ ymd.toCivil = Civil.ofDays (w.sec / 86400) := by
  obtain ⟨h0, hmax⟩ := h
  simp only [maxDay] at hmax
  refine requestedDay_eq (by omega) ?_
  simp only [minDay, maxDay]
  omega

/-- The key of an instant starts with the prefix of its own day only. -/
theorem isPrefix_makeSnapshotKey {ymd : Ymd} {n : Int} (hymd : ymd.toCivil = Civil.ofDays n)
    {w : Timespec} (h : Supported w.sec) (stock : List UInt8) :
    snapshotsOfDay stock ymd <+: makeSnapshotKey stock w ↔ w.sec / 86400 = n := by
  rw [makeSnapshotKey_eq, snapshotsOfDay_isPrefix_snapshotKey hymd h.quarter.fourDigitYear,
    quarter_div_day h.nonneg]

/-- A start of a quarter is stored under its own key. -/
theorem makeSnapshotKey_of_aligned {u : Int} (h0 : 0 ≤ u) (h : u % 900 = 0) (stock : List UInt8) :
    makeSnapshotKey stock ⟨u, 0⟩ = snapshotKey stock u := by
  rw [makeSnapshotKey_eq, quarter_of_nonneg h0, h, Int.sub_zero]

section

variable {D F : Type} [LawfulQdb D F]

/-- The stored keys of a day, in order. -/
def snapshotKeys (db : D) (stock : List UInt8) (ymd : Ymd) : List (List UInt8) :=
  ((LawfulQdb.blobs db).map Prod.fst).filter fun key => (snapshotsOfDay stock ymd).isPrefixOf key

theorem mem_snapshotKeys {db : D} {stock key : List UInt8} {ymd : Ymd} :
    key ∈ snapshotKeys db stock ymd ↔
      (∃ content, (LawfulQdb.blobs db).lookup key = some content) ∧
        snapshotsOfDay stock ymd <+: key := by
  rw [snapshotKeys, List.mem_filter, List.isPrefixOf_iff_prefix]
  refine and_congr_left fun _ => ?_
  rw [← Option.isSome_iff_exists, List.lookup_isSome_iff, List.mem_map]
  simp only [beq_iff_eq]
  exact exists_congr fun e => and_congr_right fun _ => eq_comm

theorem snapshotKeys_sorted (db : D) (stock : List UInt8) (ymd : Ymd) :
    (snapshotKeys db stock ymd).Pairwise (· < ·) :=
  (List.pairwise_map.mpr (LawfulQdb.blobs_sorted db)).filter _

variable {T : Type} [UnorderedMap T UInt64 Order]

/-- What `store_snapshot` stores is under the key of the instant it is given. -/
theorem lookup_of_storeSnapshot {host : ByteOrder} {db db' : D} {engine : ExecutionEngine T}
    {stock : List UInt8} {w : Timespec} (h : 0 ≤ w.sec)
    (hstore : storeSnapshot host db engine stock w = .ok db') :
    (LawfulQdb.blobs db').lookup (makeSnapshotKey stock w) = some (engine.serializeState host) := by
  obtain ⟨db₁, hupdate, hblobs, -⟩ := LawfulQdb.blobUpdate_eq db
    (makeSnapshotKey stock (getSnapshotTimestamp w)) (engine.serializeState host)
  rw [storeSnapshot, hupdate] at hstore
  obtain rfl : db₁ = db' := Except.ok.inj hstore
  rw [hblobs, makeSnapshotKey_getSnapshotTimestamp h, if_pos rfl]

/-- **A snapshot is found by the queries of its own day, and by no others.** The prefix that a
restore at `w` asks for is one of the key of `w`, and of the key of another instant
exactly if that is on the same UTC day; so among the keys stored for a day is the one of
a snapshot taken on it. -/
theorem day_prefix_iff (D F T : Type) [LawfulQdb D F] [UnorderedMap T UInt64 Order]
    (stock : List UInt8) {w w' : Timespec} (hw : Supported w.sec) (hw' : Supported w'.sec) :
    ∃ ymd, requestedDay w = .ok ymd ∧
      snapshotsOfDay stock ymd <+: makeSnapshotKey stock w ∧
      (snapshotsOfDay stock ymd <+: makeSnapshotKey stock w' ↔ w'.sec / 86400 = w.sec / 86400) ∧
      ∀ (host : ByteOrder) (db db' : D) (engine : ExecutionEngine T),
        storeSnapshot host db engine stock w' = .ok db' →
        (makeSnapshotKey stock w' ∈ snapshotKeys db' stock ymd ↔
          w'.sec / 86400 = w.sec / 86400) := by
  obtain ⟨ymd, hday, hymd⟩ := hw.requestedDay
  refine ⟨ymd, hday, (isPrefix_makeSnapshotKey hymd hw stock).mpr rfl,
    isPrefix_makeSnapshotKey hymd hw' stock, ?_⟩
  intro host db db' engine hstore
  rw [mem_snapshotKeys, ← isPrefix_makeSnapshotKey hymd hw' stock]
  exact and_iff_right ⟨_, lookup_of_storeSnapshot hw'.nonneg hstore⟩

theorem sampleInstant_supported : Supported sampleInstant.sec := ⟨by decide, by decide⟩

/-- The last second of the first day of 2020 is on the day of the sample instant. -/
theorem day_prefix_of_sampleInstant :
    ∃ ymd, requestedDay sampleInstant = .ok ymd ∧
      snapshotsOfDay (ascii "AAPL") ymd
        <+: makeSnapshotKey (ascii "AAPL") ⟨1577923199, 999999999⟩ := by
  have hlast : Supported (⟨1577923199, 999999999⟩ : Timespec).sec := ⟨by decide, by decide⟩
  obtain ⟨ymd, hday, -, hsame, -⟩ := day_prefix_iff (MemoryDb Rat) Rat (AssocList UInt64 Order)
    (ascii "AAPL") sampleInstant_supported hlast
  exact ⟨ymd, hday, hsame.mpr (by decide)⟩

end

/-! ### The latest of the quarters -/

section

variable {D F : Type} [LawfulQdb D F] {db : D} {stock : List UInt8} {ymd : Ymd} {n : Int}

/-- The stored keys of a day are the keys of quarters of day `n`. -/
def QuarterKeys (db : D) (stock : List UInt8) (ymd : Ymd) (n : Int) : Prop :=
  ∀ key ∈ snapshotKeys db stock ymd, ∃ u, key = snapshotKey stock u ∧ u % 900 = 0 ∧ u / 86400 = n

/-- A day has 96 quarters of an hour. -/
theorem QuarterKeys.length_le (h : QuarterKeys db stock ymd n) :
    (snapshotKeys db stock ymd).length ≤ 96 := by
  have hsub : snapshotKeys db stock ymd
      ⊆ (List.range 96).map fun i : Nat => snapshotKey stock (n * 86400 + 900 * (i : Int)) := by
    intro key hkey
    obtain ⟨u, rfl, haligned, hn⟩ := h key hkey
    refine List.mem_map.mpr ⟨((u - n * 86400) / 900).toNat, List.mem_range.mpr (by omega), ?_⟩
    congr 1
    omega
  have hne : ∀ {a b : List UInt8}, a < b → a ≠ b := fun hlt heq => List.lt_irrefl _ (heq ▸ hlt)
  have hnodup : (snapshotKeys db stock ymd).Nodup := (snapshotKeys_sorted db stock ymd).imp hne
  have hlen := (List.Nodup.subperm hnodup hsub).length_le
  rwa [List.length_map, List.length_range] at hlen

/-- The answer of the prefix read: all keys of the day. -/
theorem QuarterKeys.prefixGet (h : QuarterKeys db stock ymd n) :
    Qdb.prefixGet db (snapshotsOfDay stock ymd) 100 = .ok (snapshotKeys db stock ymd) ∨
      snapshotKeys db stock ymd = [] ∧
        Qdb.prefixGet db (snapshotsOfDay stock ymd) 100 = .error .aliasNotFound := by
  have hlen := h.length_le
  have htake : (snapshotKeys db stock ymd).take 100 = snapshotKeys db stock ymd :=
    List.take_of_length_le (by omega)
  have hget := LawfulQdb.prefixGet_eq db (snapshotsOfDay stock ymd) 100
  change Qdb.prefixGet db _ 100 = .ok ((snapshotKeys db stock ymd).take 100) ∨
    snapshotKeys db stock ymd = [] ∧ _ at hget
  rwa [htake] at hget

/-- **What is selected** on a day with a key that is not above the best one: the latest
quarter that is not after the requested one. -/
theorem QuarterKeys.selectSnapshot (h : QuarterKeys db stock ymd n) {w : Timespec}
    (hday : requestedDay w = .ok ymd) (hw : Supported w.sec) (hn : w.sec / 86400 = n)
    {key : List UInt8} (hkey : key ∈ snapshotKeys db stock ymd)
    (hle : ¬ makeSnapshotKey stock w < key) :
    ∃ u idx, selectSnapshot db stock w = .ok (some (snapshotKey stock u, idx)) ∧
      (snapshotKey stock u).drop (idx + 1) = toIsoExtendedStringUtc u ∧
      snapshotKey stock u ∈ snapshotKeys db stock ymd ∧ u / 86400 = n ∧ u ≤ quarter w.sec ∧
      ∀ u', snapshotKey stock u' ∈ snapshotKeys db stock ymd → u' / 86400 = n →
        u' ≤ quarter w.sec → u' ≤ u := by
  obtain ⟨m, hfind, hm, hbest, hlast⟩ :=
    findMatch_of_mem (snapshotKeys_sorted db stock ymd) hkey hle none
  obtain ⟨u, rfl, -, hun⟩ := h m hm
  have hquarter := quarter_div_day hw.nonneg
  have hfour : ∀ {v : Int}, v / 86400 = n → FourDigitYear v :=
    fun hv => (hw.of_day (hv.trans hn.symm)).fourDigitYear
  have hget : Qdb.prefixGet db (snapshotsOfDay stock ymd) 100
      = .ok (snapshotKeys db stock ymd) := by
    rcases h.prefixGet with hget | ⟨hnil, -⟩
    · exact hget
    · rw [hnil] at hm
      cases hm
  obtain ⟨idx, hidx, hdrop⟩ := rfind_snapshotKey (hfour hun) stock
  refine ⟨u, idx, ?_, hdrop, hm, hun, ?_, ?_⟩
  · rw [Query.selectSnapshot, hday, ok_bind, hget]
    cases hkeys : snapshotKeys db stock ymd with
    | nil =>
        rw [hkeys] at hm
        cases hm
    | cons k keys =>
        rw [hkeys] at hfind
        simp only [chooseKey, hfind, hidx, Option.map_some]
  · rw [makeSnapshotKey_eq, snapshotKey_lt_snapshotKey (hfour (by omega)) (hfour hun) (by omega)]
      at hbest
    exact not_lt.mp hbest
  · intro u' hmem' hn' hle'
    have hnot := hlast _ hmem' (by
      rw [makeSnapshotKey_eq, snapshotKey_lt_snapshotKey (hfour (by omega)) (hfour hn') (by omega)]
      exact not_lt.mpr hle')
    rw [snapshotKey_lt_snapshotKey (hfour hun) (hfour hn') (by omega)] at hnot
    exact not_lt.mp hnot

variable {T : Type} [UnorderedMap T UInt64 Order]

/-- On the day of `w`, snapshots of the stock are stored for these starts of quarters, each
under its key, and for no others. -/
structure StoredQuarters (db : D) (stock : List UInt8)
    (w : Timespec) (quarters : Set Int) : Prop where
  quarter : ∀ u ∈ quarters, u % 900 = 0 ∧ u / 86400 = w.sec / 86400
  keys : ∀ ymd, requestedDay w = .ok ymd → ∀ key,
    key ∈ snapshotKeys db stock ymd ↔ ∃ u ∈ quarters, key = makeSnapshotKey stock ⟨u, 0⟩

/-- A start of a quarter is not after an instant exactly if it is not after the instant's
own. -/
theorem mk_le_iff_le_quarter {u : Int} {w : Timespec} (hu : u % 900 = 0) (h0 : 0 ≤ w.sec)
    (hw : w.Normalized) : (⟨u, 0⟩ : Timespec) ≤ w ↔ u ≤ quarter w.sec := by
  have hnsec := hw.1
  rw [quarter_of_nonneg h0, Timespec.le_def, Timespec.lt_def]
  dsimp only
  omega

section

variable {clock : SystemClock} {host : ByteOrder} {engine : ExecutionEngine T}
variable {u : Int} {idx : Nat}

/-- A blob that is read gives the instant in its key, if the clock represents it. -/
theorem loadSnapshot_snapshotKey {engine' : ExecutionEngine T} {content : List UInt8} {p : Cursor}
    (hlookup : (LawfulQdb.blobs db).lookup (snapshotKey stock u) = some content)
    (hread : engine.deserializeState host (.ofList content 0) (.start content.length)
      = (some true, p, engine'))
    (hdrop : (snapshotKey stock u).drop (idx + 1) = toIsoExtendedStringUtc u)
    (hyear : FourDigitYear u) (hrep : clock.Represents u) :
    loadSnapshot clock host db engine (snapshotKey stock u) idx = .ok (⟨u, 0⟩, engine') := by
  refine loadSnapshot_of_read (LawfulQdb.blobGet_eq hlookup) hread ?_ hrep
  rw [hdrop, fromIso_toIso clock hyear]

/-- The snapshot of a state is restored if the emptied tables take its orders. Otherwise one of
them throws. -/
theorem loadSnapshot_serializeState (engine : ExecutionEngine T) {e : ExecutionEngine T}
    (hfit : e.FitsSizeT)
    (hlookup : (LawfulQdb.blobs db).lookup (snapshotKey stock u) = some (e.serializeState .little))
    (hdrop : (snapshotKey stock u).drop (idx + 1) = toIsoExtendedStringUtc u)
    (hyear : FourDigitYear u) (hrep : clock.Represents u) :
    (engine.Takes .little e →
        loadSnapshot clock .little db engine (snapshotKey stock u) idx
            = .ok (⟨u, 0⟩, engine.refilled .little e) ∧
          (engine.refilled .little e).SameOrders e) ∧
      (¬ engine.Takes .little e →
        loadSnapshot clock .little db engine (snapshotKey stock u) idx = .error .overflow) := by
  have hmem := Memory.bytes_ofList_zero (e.serializeState .little) 0
  have hall : ((e.serializeState .little).length : Int)
      ≤ (Cursor.start (e.serializeState .little).length).l := le_rfl
  constructor
  · intro htakes
    obtain ⟨hread, hsame⟩ := ExecutionEngine.deserializeState_serializeState hfit hmem hall htakes
    exact ⟨loadSnapshot_snapshotKey hlookup hread hdrop hyear hrep, hsame⟩
  · intro hover
    exact loadSnapshot_of_throw (LawfulQdb.blobGet_eq hlookup)
      (ExecutionEngine.deserializeState_of_not_takes hfit (Exec.readsBack_little _)
        (Exec.readsBack_little _) hmem hall hover)

end

/-- **A restore loads the latest snapshot that is not after the requested instant** and
answers with the instant of that snapshot. For every stock and every instant from 1970 to
9999, whichever quarters of its day have a snapshot, if one of them is not after
it and the blobs can be read. -/
theorem restores_latest_snapshot {clock : SystemClock} {host : ByteOrder} {w : Timespec}
    (hw : Supported w.sec) (hclock : clock.Represents w.sec)
    (hnorm : w.Normalized) {quarters : Set Int} (hstored : StoredQuarters db stock w quarters)
    (hsome : ∃ u ∈ quarters, (⟨u, 0⟩ : Timespec) ≤ w) (engine : ExecutionEngine T)
    (hblobs : ∀ u ∈ quarters, ∃ content p engine',
      (LawfulQdb.blobs db).lookup (makeSnapshotKey stock ⟨u, 0⟩) = some content ∧
      engine.deserializeState host (.ofList content 0) (.start content.length)
        = (some true, p, engine')) :
    ∃ u, IsGreatest {u | u ∈ quarters ∧ (⟨u, 0⟩ : Timespec) ≤ w} u ∧
      ∃ content p engine',
        (LawfulQdb.blobs db).lookup (makeSnapshotKey stock ⟨u, 0⟩) = some content ∧
        engine.deserializeState host (.ofList content 0) (.start content.length)
          = (some true, p, engine') ∧
        restoreSnapshot clock host db engine stock w = .ok (⟨u, 0⟩, engine') := by
  obtain ⟨ymd, hday, -⟩ := hw.requestedDay
  have hkey : ∀ u ∈ quarters, makeSnapshotKey stock ⟨u, 0⟩ = snapshotKey stock u := by
    intro u hu
    obtain ⟨haligned, hu⟩ := hstored.quarter u hu
    exact makeSnapshotKey_of_aligned (hw.of_day hu).nonneg haligned stock
  have hkeys : QuarterKeys db stock ymd (w.sec / 86400) := by
    intro key hmem
    obtain ⟨u, hu, rfl⟩ := (hstored.keys ymd hday key).mp hmem
    exact ⟨u, hkey u hu, hstored.quarter u hu⟩
  have hmem : ∀ u ∈ quarters, snapshotKey stock u ∈ snapshotKeys db stock ymd :=
    fun u hu => (hstored.keys ymd hday _).mpr ⟨u, hu, (hkey u hu).symm⟩
  have hearly : ∀ u ∈ quarters, (⟨u, 0⟩ : Timespec) ≤ w ↔ u ≤ quarter w.sec :=
    fun u hu => mk_le_iff_le_quarter (hstored.quarter u hu).1 hw.nonneg hnorm
  have hfour : ∀ u ∈ quarters, FourDigitYear u :=
    fun u hu => (hw.of_day (hstored.quarter u hu).2).fourDigitYear
  have hquarter := quarter_div_day hw.nonneg
  -- a snapshot that is early enough has a key that is not above the best one
  obtain ⟨u₀, hu₀, hle₀⟩ := hsome
  have hbest : ¬ makeSnapshotKey stock w < snapshotKey stock u₀ := by
    rw [makeSnapshotKey_eq, snapshotKey_lt_snapshotKey hw.quarter.fourDigitYear (hfour u₀ hu₀)
      (hquarter.trans (hstored.quarter u₀ hu₀).2.symm)]
    exact not_lt.mpr ((hearly u₀ hu₀).mp hle₀)
  obtain ⟨u, idx, hselect, hdrop, hu, hun, hle, hlatest⟩ :=
    hkeys.selectSnapshot hday hw rfl (hmem u₀ hu₀) hbest
  -- the key that was chosen is one of the set's
  have hu' : u ∈ quarters := by
    obtain ⟨u', hu', heq⟩ := (hstored.keys ymd hday _).mp hu
    rw [hkey u' hu'] at heq
    rwa [snapshotKey_inj (hw.of_day hun).fourDigitYear (hfour u' hu') heq]
  obtain ⟨content, p, engine', hlookup, hread⟩ := hblobs u hu'
  refine ⟨u, ⟨⟨hu', (hearly u hu').mpr hle⟩, ?_⟩, content, p, engine', hlookup, hread, ?_⟩
  · rintro v ⟨hv, hvle⟩
    exact hlatest v (hmem v hv) (hstored.quarter v hv).2 ((hearly v hv).mp hvle)
  · rw [restoreSnapshot_of_some hselect]
    rw [hkey u hu'] at hlookup
    have hrep := hclock.of_le (hw.of_day hun).nonneg (hle.trans (quarter_le hw.nonneg))
    exact loadSnapshot_snapshotKey hlookup hread hdrop (hw.of_day hun).fourDigitYear hrep

/-- The snapshot of a quarter to ten and of a quarter past ten, on the first day of 2020. -/
def twoSnapshotsDb : MemoryDb Rat :=
  (MemoryDb.ofBlob (snapshotKey (ascii "AAPL") 1577871900)
    (Exec.sampleEngine.serializeState .little)).blobUpdate
      (snapshotKey (ascii "AAPL") 1577873700) (Exec.sampleEngine.serializeState .little)

theorem storedQuarters_twoSnapshotsDb :
    StoredQuarters twoSnapshotsDb (ascii "AAPL") sampleInstant {1577871900, 1577873700} := by
  constructor
  · rintro u (rfl | rfl) <;> decide
  · intro ymd hday key
    have hfirst : requestedDay sampleInstant
        = .ok ⟨2020, 1, 1, by decide, by decide, by decide⟩ := by
      decide +kernel
    obtain rfl := Except.ok.inj (hfirst.symm.trans hday)
    have hkeys :
        snapshotKeys twoSnapshotsDb (ascii "AAPL") ⟨2020, 1, 1, by decide, by decide, by decide⟩
        = [makeSnapshotKey (ascii "AAPL") ⟨1577871900, 0⟩,
          makeSnapshotKey (ascii "AAPL") ⟨1577873700, 0⟩] := by
      decide +kernel
    rw [hkeys]
    simp

/-- At ten past ten, that is the one of a quarter to ten. -/
theorem twoSnapshotsDb_restored :
    ∃ engine',
      restoreSnapshot .nanoseconds .little twoSnapshotsDb Exec.sampleEngine
        (ascii "AAPL") sampleInstant
      = .ok (⟨1577871900, 0⟩, engine') := by
  have hread : ∀ u ∈ ({1577871900, 1577873700} : Set Int), ∃ content p engine',
      (LawfulQdb.blobs twoSnapshotsDb).lookup (makeSnapshotKey (ascii "AAPL") ⟨u, 0⟩)
        = some content ∧
      Exec.sampleEngine.deserializeState .little (.ofList content 0) (.start content.length)
        = (some true, p, engine') := by
    have hall : ((Exec.sampleEngine.serializeState .little).length : Int)
        ≤ (Cursor.start (Exec.sampleEngine.serializeState .little).length).l := le_rfl
    obtain ⟨hread, -⟩ := ExecutionEngine.deserializeState_serializeState
      Exec.sampleEngine_fitsSizeT (Memory.bytes_ofList_zero _ 0) hall
      (Exec.takes_assocList .little Exec.sampleEngine Exec.sampleEngine)
    rintro u (rfl | rfl)
    · exact ⟨_, _, _, by decide +kernel, hread⟩
    · exact ⟨_, _, _, by decide +kernel, hread⟩
  have hclock : SystemClock.nanoseconds.Represents sampleInstant.sec := by decide
  obtain ⟨u, ⟨⟨hu, hle⟩, -⟩, _, _, engine', -, -, hrestore⟩ := restores_latest_snapshot
    sampleInstant_supported hclock ⟨by decide, by decide⟩ storedQuarters_twoSnapshotsDb
    ⟨1577871900, Or.inl rfl, by decide⟩ Exec.sampleEngine hread
  rcases hu with rfl | rfl
  · exact ⟨engine', hrestore⟩
  · exact absurd hle (by decide)

end

/-! ### No snapshot that is early enough -/

/-- **All snapshots of the day are too late.** Whatever keys the prefix read returned, if there
are any and all are above the key of the requested quarter, a string is made of the null
`match` before it is compared with null; the null instant is never answered. -/
theorem only_later_snapshots_undefined {D F T : Type} [Qdb D F] [UnorderedMap T UInt64 Order]
    (clock : SystemClock) (host : ByteOrder) {db : D}
    {stock : List UInt8} {w : Timespec} {ymd : Ymd}
    (hday : requestedDay w = .ok ymd) {results : List (List UInt8)} (hsome : results ≠ [])
    (hget : Qdb.prefixGet db (snapshotsOfDay stock ymd) 100 = .ok results)
    (hlater : ∀ key ∈ results, makeSnapshotKey stock w < key) (engine : ExecutionEngine T) :
    restoreSnapshot clock host db engine stock w = .error .undefined ∧
      restoreSnapshot clock host db engine stock w ≠ .ok (Timespec.zero, engine) := by
  have hchoose : chooseKey (makeSnapshotKey stock w) (.ok results) = .error .undefined := by
    cases results with
    | nil => exact absurd rfl hsome
    | cons key results => simp only [chooseKey, findMatch_of_all_above hlater]
  have hundefined : restoreSnapshot clock host db engine stock w = .error .undefined := by
    rw [restoreSnapshot, selectSnapshot, hday, ok_bind, hget, hchoose]
    rfl
  refine ⟨hundefined, fun hnull => ?_⟩
  rw [hundefined] at hnull
  cases hnull

/-- The snapshot of a quarter past ten alone. -/
def laterSnapshotDb : MemoryDb Rat :=
  .ofBlob (snapshotKey (ascii "AAPL") 1577873700) (Exec.sampleEngine.serializeState .little)

theorem laterSnapshotDb_undefined :
    restoreSnapshot .nanoseconds .little laterSnapshotDb Exec.sampleEngine
      (ascii "AAPL") sampleInstant
      = .error .undefined := by
  have hday : requestedDay sampleInstant = .ok ⟨2020, 1, 1, by decide, by decide, by decide⟩ := by
    decide +kernel
  refine (only_later_snapshots_undefined .nanoseconds .little hday
    (List.cons_ne_nil _ []) rfl ?_ _).1
  intro key hkey
  rw [List.mem_singleton.mp hkey]
  decide +kernel

/-- It is later than ten past ten, and a restore at that instant does not return at all. -/
theorem later_snapshot_no_answer :
    (restoreSnapshot .nanoseconds .little laterSnapshotDb Exec.sampleEngine
      (ascii "AAPL") sampleInstant).map
        Prod.fst = .error .undefined := by
  decide +kernel

end TradingDesk.Query
