import TradingDesk.Exec.Capacity
import TradingDesk.Query.Main
import TradingDesk.Query.Restore

/-!
# TradingDesk.Query.PointInTime

**Point-in-time queries over whole runs.** Every query may leave a snapshot behind that
later ones start from. `fullReplay` is what a query is for: the books of all records
from midnight to the requested instant. A run of queries answers with it as long as
the stored snapshots tell the truth (`SnapshotsTrue`): each is the state at the very
instant in its key. `SafeQuery` is what a query needs for that to stay so, and `TablesTake` that
no hash table throws on the way.
-/

namespace TradingDesk.Query

open TradingDesk.Core
open TradingDesk.Exec (Order OrderRecord OrderBook ExecutionEngine)
open TradingDesk.Exec.ExecutionEngine (replay runOrder Fits)
open TradingDesk.Utils

section

variable {D F : Type} [LawfulQdb D F]

/-! ### The log of a stock -/

/-- The records of a stock in a half-open range. -/
def recordsBetween (db : D) (stock : List UInt8) (first last : Timespec) : List (OrderRecord F) :=
  (between OrderRow.timestamp (LawfulQdb.rows db (ordersTable stock)) first last).map
    (OrderRow.toRecord (Qdb.int64Undefined D))

theorem recordsBetween_append {first middle last : Timespec} (h₁ : first ≤ middle)
    (h₂ : middle ≤ last) (db : D) (stock : List UInt8) :
    recordsBetween db stock first last
      = recordsBetween db stock first middle ++ recordsBetween db stock middle last := by
  rw [recordsBetween, between_append (LawfulQdb.rows_sorted db _) h₁ h₂, List.map_append]
  rfl

theorem recordsBetween_eq_nil {db : D} {stock : List UInt8} {first last : Timespec}
    (h : ∀ row ∈ LawfulQdb.rows db (ordersTable stock),
      ¬ (first ≤ row.timestamp ∧ row.timestamp < last)) :
    recordsBetween db stock first last = [] := by
  rw [recordsBetween, between_eq_nil h, List.map_nil]

theorem length_recordsBetween_le (db : D) (stock : List UInt8) (first last : Timespec) :
    (recordsBetween db stock first last).length
      ≤ (LawfulQdb.rows db (ordersTable stock)).length := by
  rw [recordsBetween, List.length_map]
  exact List.length_filter_le _ _

theorem recordsBetween_congr {db db' : D} (h : LawfulQdb.rows db' = LawfulQdb.rows db)
    (stock : List UInt8) (first last : Timespec) :
    recordsBetween db' stock first last = recordsBetween db stock first last := by
  rw [recordsBetween, recordsBetween, h]

theorem getOrdersRecords_ok (db : D) (stock : List UInt8) (first last : Timespec) :
    ∃ orders, getOrdersRecords db (ordersTable stock) first last = .ok orders ∧
      orders.map Prod.snd = recordsBetween db stock first last ∧ ∀ e ∈ orders, first ≤ e.1 := by
  refine ⟨_, getOrdersRecords_eq db (ordersTable stock) first last, ?_, fun e he => ?_⟩
  · rw [List.map_map]
    rfl
  · obtain ⟨row, hrow, rfl⟩ := List.mem_map.mp he
    exact (mem_between.mp hrow).2.1

/-- `db'` is `db` with one blob written. -/
def Stored (db db' : D) (key content : List UInt8) : Prop :=
  (∀ k, (LawfulQdb.blobs db').lookup k
      = if k = key then some content else (LawfulQdb.blobs db).lookup k) ∧
    LawfulQdb.rows db' = LawfulQdb.rows db

variable [DoubleArith F]

/-- What a query is for: the books of everything from the midnight of the requested day
up to the requested instant. -/
def fullReplay (clock : SystemClock) (T : Type) [UnorderedMap T UInt64 Order]
    (db : D) (stock w : List UInt8) :
    Except Failure (OrderBook × OrderBook) :=
  (getTimeRange clock w).map fun range =>
    let engine := replay T (recordsBetween db stock range.1 range.2)
    (engine.buyBook, engine.sellBook)

/-! ### Runs of queries -/

variable (clock : SystemClock) (host : ByteOrder) (T : Type) [UnorderedMap T UInt64 Order]
variable (stock : List UInt8)

/-- A query with point-in-time enabled, as a step of the database: the books it ends
with, and the database it leaves behind. -/
def pointInTimeStep (db : D) (w : List UInt8) : Except Failure (OrderBook × OrderBook) × D :=
  match runQuery clock host T db ⟨true, stock, w⟩ with
  | .error failure => (.error failure, db)
  | .ok (answer, db) => (.ok answer.books, db)

/-- A query ends with the books of the full replay, with point-in-time and without. -/
def AnswersAsReplay (db : D) (w : List UInt8) : Prop :=
  queriedBooks clock host T db ⟨true, stock, w⟩ = fullReplay clock T db stock w ∧
    queriedBooks clock host T db ⟨false, stock, w⟩ = fullReplay clock T db stock w

end

/-! ### One query -/

section

variable {D F T : Type} [LawfulQdb D F] [DoubleArith F] [UnorderedMap T UInt64 Order]
variable {clock : SystemClock} {host : ByteOrder} {stock : List UInt8} {db : D} {w : List UInt8}
variable {first last snap : Timespec} {engine : ExecutionEngine T}

/-- What a query with point-in-time disabled does. -/
theorem runQuery_disabled (hrange : getTimeRange clock w = .ok (first, last))
    (hfits : Along runOrder Fits (ExecutionEngine.empty : ExecutionEngine T)
      (recordsBetween db stock first last)) :
    queriedBooks clock host T db ⟨false, stock, w⟩
      = .ok ((replay T (recordsBetween db stock first last)).buyBook,
          (replay T (recordsBetween db stock first last)).sellBook) := by
  obtain ⟨orders, horders, hmap, -⟩ := getOrdersRecords_ok db stock first last
  rw [queriedBooks, runQuery, hrange, ok_bind]
  simp only [Bool.false_eq_true, if_false, false_and, ne_eq, not_true_eq_false, ok_bind, horders,
    hmap, runRecords_of_along hfits]
  rfl

/-- What a query with point-in-time enabled does, from what `restore_snapshot` gave it. -/
theorem runQuery_enabled (hrange : getTimeRange clock w = .ok (first, last))
    (hrestore : restoreSnapshot clock host db (ExecutionEngine.empty : ExecutionEngine T) stock last
      = .ok (snap, engine)) {records : List (OrderRecord F)}
    (hrecords : records
      = recordsBetween db stock (if snap ≠ Timespec.zero then snap else first) last)
    (hfits : Along runOrder Fits engine records) :
    ∃ answer db', runQuery clock host T db ⟨true, stock, w⟩ = .ok (answer, db') ∧
      answer.books = ((run runOrder engine records).buyBook,
        (run runOrder engine records).sellBook) ∧
      (if records ≠ [] ∧ snap < getSnapshotTimestamp last then
        Stored db db' (makeSnapshotKey stock (getSnapshotTimestamp last))
          ((run runOrder engine records).serializeState host)
      else db' = db) := by
  obtain ⟨orders, horders, hmap, hfrom⟩ :=
    getOrdersRecords_ok db stock (if snap ≠ Timespec.zero then snap else first) last
  -- the rows were read from the snapshot on, so its lower bound is their beginning
  have hrun : (if snap ≠ Timespec.zero then lowerBound orders snap else orders) = orders := by
    split
    · rename_i hsnap
      rw [if_pos hsnap] at hfrom
      exact lowerBound_of_le hfrom
    · rfl
  have hempty : orders ≠ [] ↔ records ≠ [] := by
    rw [hrecords, ← hmap, ne_eq, ne_eq, List.map_eq_nil_iff]
  rw [runQuery, hrange, ok_bind]
  simp only [if_true, hrestore, ok_bind, horders, hrun, hmap, ← hrecords, true_and, hempty,
    runRecords_of_along hfits]
  by_cases hstore : records ≠ [] ∧ snap < getSnapshotTimestamp last
  · obtain ⟨db', hupdate, hblobs, hrows⟩ := LawfulQdb.blobUpdate_eq db
      (makeSnapshotKey stock (getSnapshotTimestamp last))
      ((run runOrder engine records).serializeState host)
    have hstored : storeSnapshot host db (run runOrder engine records) stock last = .ok db' := by
      rw [storeSnapshot, hupdate]
      rfl
    rw [if_pos hstore, hstored, ok_bind]
    exact ⟨_, _, rfl, rfl, by rw [if_pos hstore]; exact ⟨hblobs, hrows⟩⟩
  · rw [if_neg hstore]
    exact ⟨_, _, rfl, rfl, by rw [if_neg hstore]⟩

end

section

variable {D F : Type} [LawfulQdb D F]

/-! ### Safe queries -/

/-- What a query needs so that it can use the snapshots and leaves true ones behind. If
snapshots of its day are stored, the host is little-endian and one of them is not after
the query's quarter. And its quarter, if it is one that snapshots are stored for, has
its snapshot already, or no records in the part that has passed: the state that a query
stores under the quarter is the one at its own instant. -/
def SafeAt (host : ByteOrder) (stock : List UInt8) (db : D) (last : Timespec) (ymd : Ymd) : Prop :=
  (snapshotKeys db stock ymd ≠ [] →
    host = .little ∧ ∃ key ∈ snapshotKeys db stock ymd, ¬ makeSnapshotKey stock last < key) ∧
  (0 < (getSnapshotTimestamp last).sec → makeSnapshotKey stock last ∈ snapshotKeys db stock ymd ∨
    ∀ row ∈ LawfulQdb.rows db (ordersTable stock),
      ¬ (getSnapshotTimestamp last ≤ row.timestamp ∧ row.timestamp < last))

instance (host : ByteOrder) (stock : List UInt8) (db : D) (last : Timespec) (ymd : Ymd) :
    Decidable (SafeAt host stock db last ymd) :=
  inferInstanceAs (Decidable ((_ → _) ∧ (_ → _)))

variable [DoubleArith F]

/-- No hash table throws: neither when the records from midnight on are run in an empty engine, nor
when the snapshot that is chosen is read into one and the records since then are run there. -/
def TablesTake (T : Type) [UnorderedMap T UInt64 Order] (stock : List UInt8) (db : D)
    (first last : Timespec) : Prop :=
  Along runOrder Fits (ExecutionEngine.empty : ExecutionEngine T)
      (recordsBetween db stock first last) ∧
    ∀ u idx, selectSnapshot db stock last = .ok (some (snapshotKey stock u, idx)) →
      ∀ e : ExecutionEngine T,
        (LawfulQdb.blobs db).lookup (snapshotKey stock u) = some (e.serializeState .little) →
        (ExecutionEngine.empty : ExecutionEngine T).Takes .little e ∧
          Along runOrder Fits e.restored (recordsBetween db stock ⟨u, 0⟩ last)

/-- A query meets its needs. -/
def SafeQuery (clock : SystemClock) (host : ByteOrder)
    (T : Type) [UnorderedMap T UInt64 Order] (stock : List UInt8)
    (db : D) (w : List UInt8) : Prop :=
  ∀ first last ymd, getTimeRange clock w = .ok (first, last) → requestedDay last = .ok ymd →
    SafeAt host stock db last ymd ∧ TablesTake T stock db first last

/-- Lists of orders throw nothing. -/
theorem SafeQuery.of_range {clock : SystemClock} {host : ByteOrder}
    {stock : List UInt8} {db : D} {w : List UInt8}
    {first last : Timespec} {ymd : Ymd} (hrange : getTimeRange clock w = .ok (first, last))
    (hday : requestedDay last = .ok ymd) (h : SafeAt host stock db last ymd) :
    SafeQuery clock host (AssocList UInt64 Order) stock db w := by
  intro first' last' ymd' hrange' hday'
  rw [hrange] at hrange'
  cases hrange'
  rw [hday] at hday'
  cases hday'
  exact ⟨h, ExecutionEngine.along_fits_assocList _ _, fun _ _ _ _ _ =>
    ⟨Exec.takes_assocList _ _ _, ExecutionEngine.along_fits_assocList _ _⟩⟩

/-! ### True snapshots -/

variable {T : Type} [UnorderedMap T UInt64 Order]

/-- A snapshot that tells the truth: it is the encoding of the state at the instant in
its key. -/
structure IsSnapshot (host : ByteOrder) (T : Type) [UnorderedMap T UInt64 Order] (db : D)
    (stock : List UInt8) (u : Int) (content : List UInt8) : Prop where
  pos : 0 < u
  aligned : u % 900 = 0
  supported : u / 86400 ≤ maxDay
  state : ∃ e : ExecutionEngine T, content = e.serializeState host ∧
    e.SameOrders (replay T (recordsBetween db stock ⟨u / 86400 * 86400, 0⟩ ⟨u, 0⟩))

/-- **The invariant.** All snapshots of the stock tell the truth, and the log of the
stock is one that fits into memory. -/
structure SnapshotsTrue (host : ByteOrder) (T : Type) [UnorderedMap T UInt64 Order]
    (stock : List UInt8) (db : D) : Prop where
  capacity : (LawfulQdb.rows db (ordersTable stock)).length < 2 ^ 58
  snapshots : ∀ key content, (LawfulQdb.blobs db).lookup key = some content →
    stock ++ ascii "_orders_snap_" <+: key →
    ∃ u, key = snapshotKey stock u ∧ IsSnapshot host T db stock u content

theorem IsSnapshot.isSupported {host : ByteOrder} {db : D} {stock content : List UInt8} {u : Int}
    (h : IsSnapshot host T db stock u content) : Supported u := ⟨le_of_lt h.pos, h.supported⟩

theorem IsSnapshot.fourDigitYear {host : ByteOrder} {db : D} {stock content : List UInt8} {u : Int}
    (h : IsSnapshot host T db stock u content) : FourDigitYear u := h.isSupported.fourDigitYear

variable {clock : SystemClock} {host : ByteOrder} {stock : List UInt8} {db : D} {ymd : Ymd}
variable {n : Int}

/-- The keys of a day belong to instants of that day. -/
theorem SnapshotsTrue.of_mem_snapshotKeys (hInv : SnapshotsTrue host T stock db)
    (hymd : ymd.toCivil = Civil.ofDays n) {key : List UInt8}
    (hkey : key ∈ snapshotKeys db stock ymd) :
    ∃ u content, key = snapshotKey stock u ∧ (LawfulQdb.blobs db).lookup key = some content ∧
      IsSnapshot host T db stock u content ∧ u / 86400 = n := by
  obtain ⟨⟨content, hlookup⟩, hday⟩ := mem_snapshotKeys.mp hkey
  have hstart : stock ++ ascii "_orders_snap_" <+: key := by
    rw [snapshotsOfDay_eq hymd] at hday
    exact (List.prefix_append _ _).trans hday
  obtain ⟨u, rfl, hu⟩ := hInv.snapshots key content hlookup hstart
  exact ⟨u, content, rfl, hlookup, hu,
    (snapshotsOfDay_isPrefix_snapshotKey hymd hu.fourDigitYear stock).mp hday⟩

theorem SnapshotsTrue.quarterKeys (hInv : SnapshotsTrue host T stock db)
    (hymd : ymd.toCivil = Civil.ofDays n) : QuarterKeys db stock ymd n := by
  intro key hkey
  obtain ⟨u, _, rfl, -, hu, hn⟩ := hInv.of_mem_snapshotKeys hymd hkey
  exact ⟨u, rfl, hu.aligned, hn⟩

/-! ### What a safe query restores -/

/-- The snapshot a query uses: the latest of the day that is not after its quarter. -/
structure Selected (host : ByteOrder) (T : Type) [UnorderedMap T UInt64 Order] (db : D)
    (stock : List UInt8) (t u : Int) (content : List UInt8) : Prop where
  stored : (LawfulQdb.blobs db).lookup (snapshotKey stock u) = some content
  isSnapshot : IsSnapshot host T db stock u content
  day : u / 86400 = t / 86400
  le : u ≤ quarter t

/-- **What is selected.** Nothing, if no snapshot of the day is stored; otherwise, in a safe
query, the latest one. -/
theorem selectSnapshot_cases (hInv : SnapshotsTrue host T stock db) {t : Int}
    (hday : requestedDay ⟨t, 0⟩ = .ok ymd) (hymd : ymd.toCivil = Civil.ofDays (t / 86400))
    (hsafe : SafeAt host stock db ⟨t, 0⟩ ymd) :
    (snapshotKeys db stock ymd = [] ∧ selectSnapshot db stock ⟨t, 0⟩ = .ok none) ∨
      ∃ u idx content, selectSnapshot db stock ⟨t, 0⟩ = .ok (some (snapshotKey stock u, idx)) ∧
        (snapshotKey stock u).drop (idx + 1) = toIsoExtendedStringUtc u ∧
        host = .little ∧ Selected host T db stock t u content ∧
        (makeSnapshotKey stock ⟨t, 0⟩ ∈ snapshotKeys db stock ymd → u = quarter t) := by
  have hkeys := hInv.quarterKeys hymd
  by_cases hnil : snapshotKeys db stock ymd = []
  · refine Or.inl ⟨hnil, ?_⟩
    rw [selectSnapshot, hday, ok_bind]
    rcases hkeys.prefixGet with hget | ⟨-, hget⟩
    · rw [hget, hnil]
      rfl
    · rw [hget]
      rfl
  · obtain ⟨hlittle, key, hmem, hbest⟩ := hsafe.1 hnil
    obtain ⟨u₀, _, rfl, -, hu₀, hun₀⟩ := hInv.of_mem_snapshotKeys hymd hmem
    -- the query is of the snapshot's own day, so it is not before the epoch
    have ht : Supported t := hu₀.isSupported.of_day hun₀.symm
    obtain ⟨u, idx, hselect, hdrop, hu, hun, hle, hlatest⟩ :=
      hkeys.selectSnapshot hday ht rfl hmem hbest
    obtain ⟨u', content, heq, hstored, hu', hun'⟩ := hInv.of_mem_snapshotKeys hymd hu
    obtain rfl := snapshotKey_inj (ht.of_day hun).fourDigitYear hu'.fourDigitYear heq
    refine Or.inr ⟨u, idx, content, hselect, hdrop, hlittle, ⟨hstored, hu', hun, hle⟩, ?_⟩
    intro hmine
    exact le_antisymm hle (hlatest _ hmine (quarter_div_day ht.nonneg) le_rfl)

/-- **What is restored.** Nothing, or the state at the instant in the key. -/
theorem restoreSnapshot_cases (hInv : SnapshotsTrue host T stock db) {t : Int}
    (hday : requestedDay ⟨t, 0⟩ = .ok ymd) (hymd : ymd.toCivil = Civil.ofDays (t / 86400))
    (hsafe : SafeAt host stock db ⟨t, 0⟩ ymd) {first : Timespec}
    (htake : TablesTake T stock db first ⟨t, 0⟩) (hclock : clock.Represents t) :
    (snapshotKeys db stock ymd = [] ∧
        restoreSnapshot clock host db (ExecutionEngine.empty : ExecutionEngine T) stock ⟨t, 0⟩
          = .ok (Timespec.zero, ExecutionEngine.empty)) ∨
      ∃ u content engine,
        restoreSnapshot clock host db (ExecutionEngine.empty : ExecutionEngine T) stock
            ⟨t, 0⟩ = .ok (⟨u, 0⟩, engine) ∧
        Selected host T db stock t u content ∧
        engine.SameOrders (replay T (recordsBetween db stock ⟨u / 86400 * 86400, 0⟩ ⟨u, 0⟩)) ∧
        Along runOrder Fits engine (recordsBetween db stock ⟨u, 0⟩ ⟨t, 0⟩) ∧
        (makeSnapshotKey stock ⟨t, 0⟩ ∈ snapshotKeys db stock ymd → u = quarter t) := by
  rcases selectSnapshot_cases hInv hday hymd hsafe with
    ⟨hnil, hselect⟩ | ⟨u, idx, content, hselect, hdrop, rfl, hu, hbest⟩
  · exact Or.inl ⟨hnil, restoreSnapshot_of_none hselect⟩
  · obtain ⟨e, rfl, hstate⟩ := hu.isSnapshot.state
    have hfit : e.FitsSizeT := hstate.fitsSizeT
      (lt_of_le_of_lt (length_recordsBetween_le db stock _ _) hInv.capacity)
    obtain ⟨htakes, hfits⟩ := htake.2 u idx hselect e hu.stored
    have hday0 := hu.day
    have hpos := hu.isSnapshot.pos
    have hrep := hclock.of_le hpos.le (hu.le.trans (quarter_le (by omega)))
    obtain ⟨hload, hsame⟩ := (loadSnapshot_serializeState _ hfit hu.stored hdrop
      hu.isSnapshot.fourDigitYear hrep).1 htakes
    refine Or.inr ⟨u, _, e.restored, ?_, hu, ?_, hfits, hbest⟩
    · rw [restoreSnapshot_of_some hselect]
      exact hload
    · rw [ExecutionEngine.sameOrders_iff] at hsame hstate ⊢
      exact hsame.trans hstate

/-! ### What a safe query stores -/

theorem IsSnapshot.congr {db' : D} (h : LawfulQdb.rows db' = LawfulQdb.rows db) {u : Int}
    {content : List UInt8} (hu : IsSnapshot host T db stock u content) :
    IsSnapshot host T db' stock u content := by
  obtain ⟨hpos, haligned, hsupported, e, hcontent, hstate⟩ := hu
  refine ⟨hpos, haligned, hsupported, e, hcontent, ?_⟩
  rwa [recordsBetween_congr h]

/-- Storing a true snapshot keeps the invariant. -/
theorem SnapshotsTrue.store (hInv : SnapshotsTrue host T stock db) {db' : D} {u : Int}
    {content : List UInt8} (hu : IsSnapshot host T db stock u content)
    (hstored : Stored db db' (snapshotKey stock u) content) : SnapshotsTrue host T stock db' := by
  obtain ⟨hblobs, hrows⟩ := hstored
  refine ⟨by rw [hrows]; exact hInv.capacity, fun key content' hlookup hstart => ?_⟩
  rw [hblobs] at hlookup
  -- the new blob, or one that was there before and is still true of the same rows
  by_cases hkey : key = snapshotKey stock u
  · rw [if_pos hkey, Option.some.injEq] at hlookup
    exact ⟨u, hkey, hlookup ▸ hu.congr hrows⟩
  · rw [if_neg hkey] at hlookup
    obtain ⟨u', hkey', hu'⟩ := hInv.snapshots key content' hlookup hstart
    exact ⟨u', hkey', hu'.congr hrows⟩

/-- A state at an instant is the state at the start of the quarter, if no records are in
between. -/
theorem isSnapshot_quarter {t : Int} (hpos : 0 < quarter t) (hsupported : t / 86400 ≤ maxDay)
    (hnone : ∀ row ∈ LawfulQdb.rows db (ordersTable stock),
      ¬ ((⟨quarter t, 0⟩ : Timespec) ≤ row.timestamp ∧ row.timestamp < ⟨t, 0⟩))
    {e : ExecutionEngine T}
    (he : e.SameOrders (replay T (recordsBetween db stock ⟨t / 86400 * 86400, 0⟩ ⟨t, 0⟩))) :
    IsSnapshot host T db stock (quarter t) (e.serializeState host) := by
  have ht := nonneg_of_quarter_pos hpos
  have hquarter := quarter_of_nonneg ht
  have hday := quarter_div_day ht
  refine ⟨hpos, by omega, by rw [hday]; exact hsupported, e, rfl, ?_⟩
  -- midnight, the start of the quarter, the instant
  have hsplit := recordsBetween_append
    (Timespec.mk_le_mk.mpr (show t / 86400 * 86400 ≤ quarter t by omega))
    (Timespec.mk_le_mk.mpr (show quarter t ≤ t by omega)) db stock
  rw [recordsBetween_eq_nil hnone, List.append_nil] at hsplit
  rwa [hday, ← hsplit]

/-! ### Steps and runs -/

/-- A query whose engine ends with the orders of the full replay, and which stores true
snapshots only. -/
theorem step_of_restore (hInv : SnapshotsTrue host T stock db)
    {w : List UInt8} {first snap : Timespec}
    {t : Int} (hrange : getTimeRange clock w = .ok (first, ⟨t, 0⟩)) {engine : ExecutionEngine T}
    (hrestore : restoreSnapshot clock host db
      (ExecutionEngine.empty : ExecutionEngine T) stock ⟨t, 0⟩
      = .ok (snap, engine)) {records : List (OrderRecord F)}
    (hrecords : records
      = recordsBetween db stock (if snap ≠ Timespec.zero then snap else first) ⟨t, 0⟩)
    (hfits : Along runOrder Fits engine records)
    (hday : Along runOrder Fits (ExecutionEngine.empty : ExecutionEngine T)
      (recordsBetween db stock first ⟨t, 0⟩))
    (hsame : (run runOrder engine records).SameOrders
      (replay T (recordsBetween db stock first ⟨t, 0⟩)))
    (hstore : snap < ⟨quarter t, 0⟩ →
      0 ≤ t ∧ IsSnapshot host T db stock (quarter t)
          ((run runOrder engine records).serializeState host)) :
    AnswersAsReplay clock host T stock db w ∧
      SnapshotsTrue host T stock (pointInTimeStep clock host T stock db w).2 := by
  obtain ⟨answer, db', hquery, hbooks, hdb⟩ := runQuery_enabled hrange hrestore hrecords hfits
  have hfull : fullReplay clock T db stock w
      = .ok ((replay T (recordsBetween db stock first ⟨t, 0⟩)).buyBook,
          (replay T (recordsBetween db stock first ⟨t, 0⟩)).sellBook) := by
    rw [fullReplay, hrange]
    rfl
  refine ⟨⟨?_, (runQuery_disabled hrange hday).trans hfull.symm⟩, ?_⟩
  · rw [queriedBooks, hquery, hfull, ← hsame.buyBook, ← hsame.sellBook, ← hbooks]
    rfl
  · have hnext : (pointInTimeStep clock host T stock db w).2 = db' := by
      rw [pointInTimeStep, hquery]
    rw [hnext]
    split at hdb
    · rename_i hcond
      obtain ⟨ht, hu⟩ := hstore hcond.2
      rw [makeSnapshotKey_getSnapshotTimestamp ht, makeSnapshotKey_eq] at hdb
      exact hInv.store hu hdb
    · rw [hdb]
      exact hInv

/-- Where the time range cannot be made, both queries and the replay fail alike, and nothing
is stored. -/
theorem step_of_getTimeRange_error (hInv : SnapshotsTrue host T stock db) {w : List UInt8}
    {failure : Failure} (hrange : getTimeRange clock w = .error failure) :
    AnswersAsReplay clock host T stock db w ∧
      SnapshotsTrue host T stock (pointInTimeStep clock host T stock db w).2 := by
  have hquery : ∀ pit, runQuery clock host T db ⟨pit, stock, w⟩ = .error failure := by
    intro pit
    rw [runQuery, hrange, error_bind]
  have hreplay : fullReplay clock T db stock w = .error failure := by
    rw [fullReplay, hrange]
    rfl
  refine ⟨⟨?_, ?_⟩, ?_⟩
  · rw [queriedBooks, hquery, hreplay]
    rfl
  · rw [queriedBooks, hquery, hreplay]
    rfl
  · rw [pointInTimeStep, hquery]
    exact hInv

/-- **Step lemma.** On true snapshots, a safe query answers as the full replay does, and
leaves true snapshots behind. -/
theorem safeQuery_step (hInv : SnapshotsTrue host T stock db) {w : List UInt8}
    (hsafe : SafeQuery clock host T stock db w) :
    AnswersAsReplay clock host T stock db w ∧
      SnapshotsTrue host T stock (pointInTimeStep clock host T stock db w).2 := by
  rcases hrange : getTimeRange clock w with failure | ⟨first, last⟩
  · exact step_of_getTimeRange_error hInv hrange
  obtain ⟨t, hclock, hbounds, hn, rfl, rfl⟩ := getTimeRange_ok hrange
  obtain ⟨ymd, hday, hymd⟩ := @requestedDay_eq ⟨t, 0⟩ hbounds hn
  obtain ⟨hneeds, htake⟩ := hsafe _ _ ymd hrange hday
  -- a store happens after the epoch only, and at the right state if the key was not there
  have hstore : ∀ {snap : Timespec} {e : ExecutionEngine T}, Timespec.zero ≤ snap →
      snap < ⟨quarter t, 0⟩ → makeSnapshotKey stock ⟨t, 0⟩ ∉ snapshotKeys db stock ymd →
      e.SameOrders (replay T (recordsBetween db stock ⟨t / 86400 * 86400, 0⟩ ⟨t, 0⟩)) →
      0 ≤ t ∧ IsSnapshot host T db stock (quarter t) (e.serializeState host) := by
    intro snap e hzero hlt hnew he
    have hpos : 0 < quarter t := Timespec.mk_lt_mk.mp (lt_of_le_of_lt hzero hlt)
    have ht0 := nonneg_of_quarter_pos hpos
    have hnone := (hneeds.2 hpos).resolve_left hnew
    exact ⟨ht0, isSnapshot_quarter hpos hn.2 hnone he⟩
  rcases restoreSnapshot_cases hInv hday hymd hneeds htake hclock with
    ⟨hnil, hrestore⟩ | ⟨u, content, engine, hrestore, hu, hsame, hfits, hbest⟩
  · -- no snapshot: the replay starts at midnight
    have hstart : (if Timespec.zero ≠ Timespec.zero then Timespec.zero
        else (⟨t / 86400 * 86400, 0⟩ : Timespec)) = ⟨t / 86400 * 86400, 0⟩ :=
          if_neg fun hne => hne rfl
    have hsame : (run runOrder (ExecutionEngine.empty : ExecutionEngine T)
        (recordsBetween db stock ⟨t / 86400 * 86400, 0⟩ ⟨t, 0⟩)).SameOrders
          (replay T (recordsBetween db stock ⟨t / 86400 * 86400, 0⟩ ⟨t, 0⟩)) := ⟨rfl, rfl⟩
    refine step_of_restore hInv hrange hrestore (by rw [hstart]) htake.1 htake.1 hsame fun hlt => ?_
    exact hstore le_rfl hlt (by rw [hnil]; exact List.not_mem_nil) hsame
  · -- a snapshot of an earlier instant of the day: the replay starts there
    have hpos := hu.isSnapshot.pos
    have hu_day := hu.day
    have ht0 : 0 ≤ t := by omega
    have hle := hu.le
    have hquarter := quarter_of_nonneg ht0
    have hnonzero : (⟨u, 0⟩ : Timespec) ≠ Timespec.zero := by
      intro heq
      rw [Timespec.zero, Timespec.mk.injEq] at heq
      omega
    have hsplit :=
      recordsBetween_append (Timespec.mk_le_mk.mpr (show t / 86400 * 86400 ≤ u by omega))
      (Timespec.mk_le_mk.mpr (show u ≤ t by omega)) db stock
    rw [hu_day] at hsame
    have hrun : (run runOrder engine (recordsBetween db stock ⟨u, 0⟩ ⟨t, 0⟩)).SameOrders
        (replay T (recordsBetween db stock ⟨t / 86400 * 86400, 0⟩ ⟨t, 0⟩)) := by
      rw [hsplit, replay, run_append]
      exact ExecutionEngine.sameOrders_simulates.run hsame _
    refine step_of_restore hInv hrange hrestore (by rw [if_pos hnonzero]) hfits htake.1 hrun
      fun hlt => ?_
    refine hstore (Timespec.mk_le_mk.mpr (le_of_lt hpos)) hlt (fun hmem => ?_) hrun
    exact absurd (hbest hmem) (ne_of_lt (Timespec.mk_lt_mk.mp hlt))

/-- **Point-in-time answers are full replays**, in every run of queries that starts without
snapshots of the stock and meets the needs of each query. -/
theorem point_in_time_answers_as_replay {db : D}
    (hcapacity : (LawfulQdb.rows db (ordersTable stock)).length < 2 ^ 58)
    (hnone : ∀ e ∈ LawfulQdb.blobs db, ¬ stock ++ ascii "_orders_snap_" <+: e.1)
    {queries : List (List UInt8)}
    (hsafe : Along (pointInTimeStep clock host T stock) (SafeQuery clock host T stock) db queries) :
    Along (pointInTimeStep clock host T stock) (AnswersAsReplay clock host T stock) db queries := by
  refine along_induction (SnapshotsTrue host T stock) ⟨hcapacity, ?_⟩
    (fun db w hInv hneeds => safeQuery_step hInv hneeds) hsafe
  intro key content hlookup hstart
  obtain ⟨before, after, hblobs, -⟩ := List.lookup_eq_some_iff.mp hlookup
  exact absurd hstart (hnone (key, content) (by rw [hblobs]; simp))

end

/-! ### Runs of two queries -/

/-- The plainest table. -/
abbrev SampleTable := AssocList UInt64 Order

/-- The first day of 2020. -/
def sampleDay : Ymd := ⟨2020, 1, 1, by decide, by decide, by decide⟩

/-- The addition of an order of 100 shares, as a row. -/
def addRow (sec : Int) : OrderRow Rat :=
  ⟨⟨sec, 0⟩, 'A'.toUInt8.toUInt64.toInt64, 1, Int64.minValue, Int64.minValue, 1, 100, 1⟩

/-- The execution of 40 shares of it. -/
def executeRow (sec : Int) : OrderRow Rat :=
  ⟨⟨sec, 0⟩, 'E'.toUInt8.toUInt64.toInt64, 1, Int64.minValue, Int64.minValue, Int64.minValue, 40, 0⟩

/-- A database without blobs, with an order added at 10:05 and executed in part at a later
instant. -/
def sampleDb (executed : Int) (h : 1577873100 ≤ executed) : MemoryDb Rat :=
  ⟨[], [(ordersTable (ascii "AAPL"), [addRow 1577873100, executeRow executed])], List.Pairwise.nil,
    fun t ht => by
      rw [List.mem_singleton.mp ht]
      exact List.pairwise_pair.mpr (Timespec.mk_le_mk.mpr h)⟩

/-- The order is executed at 10:20. A query at 10:15 stores the state of its own instant,
and a query at 10:25 starts from it. -/
theorem sample_point_in_time_answers :
    Along (pointInTimeStep .nanoseconds .little SampleTable (ascii "AAPL"))
      (AnswersAsReplay .nanoseconds .little SampleTable (ascii "AAPL"))
        (sampleDb 1577874000 (by decide))
      [ascii "2020-01-01T10:15:00Z", ascii "2020-01-01T10:25:00Z"] := by
  refine point_in_time_answers_as_replay (by decide +kernel)
    (fun e he => absurd he List.not_mem_nil)
    ⟨?_, ?_, trivial⟩
  · exact .of_range
      (show getTimeRange .nanoseconds _ = .ok (⟨1577836800, 0⟩, ⟨1577873700, 0⟩) by decide +kernel)
      (show requestedDay _ = .ok sampleDay by decide +kernel) (by decide +kernel)
  · exact .of_range
      (show getTimeRange .nanoseconds _ = .ok (⟨1577836800, 0⟩, ⟨1577874300, 0⟩) by decide +kernel)
      (show requestedDay _ = .ok sampleDay by decide +kernel) (by decide +kernel)

/-- **A quarter's snapshot holds later orders.** The order is executed at 10:06. A query at
10:10 stores its state under 10:00, and a query at 10:12 starts from it and runs the
records since 10:00 again: 20 shares are left where the replay leaves 60. -/
theorem second_query_of_quarter_replays_twice :
    outputs (pointInTimeStep .nanoseconds .little SampleTable (ascii "AAPL"))
      (sampleDb 1577873160 (by decide))
        [ascii "2020-01-01T10:10:00Z", ascii "2020-01-01T10:12:00Z"]
      = [.ok ([(⟨1000, 60⟩, 1)], []), .ok ([(⟨1000, 20⟩, 1)], [])] ∧
    queriedBooks .nanoseconds .little SampleTable (sampleDb 1577873160 (by decide))
        ⟨false, ascii "AAPL", ascii "2020-01-01T10:12:00Z"⟩ = .ok ([(⟨1000, 60⟩, 1)], []) ∧
    ¬ Along (pointInTimeStep .nanoseconds .little SampleTable (ascii "AAPL"))
      (AnswersAsReplay .nanoseconds .little SampleTable (ascii "AAPL"))
        (sampleDb 1577873160 (by decide))
      [ascii "2020-01-01T10:10:00Z", ascii "2020-01-01T10:12:00Z"] := by
  refine ⟨by decide +kernel, by decide +kernel, fun hall => ?_⟩
  have hsecond := hall.2.1
  have hdiffer : queriedBooks .nanoseconds .little SampleTable
      (pointInTimeStep .nanoseconds .little SampleTable
        (ascii "AAPL") (sampleDb 1577873160 (by decide))
        (ascii "2020-01-01T10:10:00Z")).2 ⟨true, ascii "AAPL", ascii "2020-01-01T10:12:00Z"⟩
      ≠ fullReplay .nanoseconds SampleTable
        (pointInTimeStep .nanoseconds .little SampleTable
          (ascii "AAPL") (sampleDb 1577873160 (by decide))
          (ascii "2020-01-01T10:10:00Z")).2 (ascii "AAPL") (ascii "2020-01-01T10:12:00Z") := by
    decide +kernel
  exact hdiffer hsecond.1

end TradingDesk.Query
