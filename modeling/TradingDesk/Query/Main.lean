import TradingDesk.Exec.Book
import TradingDesk.Query.Snapshot

/-!
# TradingDesk.Query.Main

**One query** (`nasdaq_exec.cpp`, `main`): restore a snapshot if point-in-time is
enabled, read the records from there or from midnight, run them, and store a snapshot
if the one that was used is of an earlier quarter. What is printed is left out; the
books, the counts and the database are what remains.
-/

namespace TradingDesk.Query

open TradingDesk.Core
open TradingDesk.Exec (Order OrderRecord OrderBook ExecutionEngine)
open TradingDesk.Utils

/-! ### The requested range -/

/-- `get_time_range`: the midnight of the requested day and the requested instant. -/
def getTimeRange (clock : SystemClock) (w : List UInt8) : Except Failure (Timespec × Timespec) := do
  let timePoint := fromIsoExtendedStringUtc clock w
  if timePoint = 0 then throw (.exception "invalid time")
  let timePointTs := ⟨clock.toSeconds timePoint, 0⟩
  let requestedDay ← orElseThrow .terminated (extractDate timePointTs)
  return (makeTimespec requestedDay, timePointTs)

section

variable {clock : SystemClock} {w : List UInt8}

theorem getTimeRange_of_failure (h : fromIsoExtendedStringUtc clock w = 0) :
    getTimeRange clock w = .error (.exception "invalid time") := by
  rw [getTimeRange, h]
  rfl

/-- The requested range, by the fields that were read. -/
theorem getTimeRange_of_parseTm {tm : Tm} (hread : parseTm w = some tm) (hepoch : timegm tm ≠ 0)
    {t : Int} (ht : clock.toSeconds (clock.fromTimeT (timegm tm)) = t) :
    getTimeRange clock w = if minDay ≤ t / 86400 ∧ t / 86400 ≤ maxDay then
        .ok (⟨t / 86400 * 86400, 0⟩, ⟨t, 0⟩)
      else .error .terminated := by
  have hbounds := timegm_bounds hread
  obtain ⟨hlo, hhi⟩ : -2 ^ 40 < t ∧ t < 2 ^ 40 :=
    ht ▸ SystemClock.toSeconds_fromTimeT_bounds hbounds
  have hpoint : fromIsoExtendedStringUtc clock w = clock.fromTimeT (timegm tm) := by
    rw [fromIsoExtendedStringUtc, hread]
  have hnonzero : ¬ clock.fromTimeT (timegm tm) = 0 :=
    fun hzero => hepoch ((SystemClock.fromTimeT_eq_zero_iff hbounds).mp hzero)
  rw [getTimeRange, hpoint, if_neg hnonzero, ht]
  dsimp only
  rw [@extractDate_eq ⟨t, 0⟩ hlo hhi]
  by_cases hday : minDay ≤ t / 86400 ∧ t / 86400 ≤ maxDay
  · rw [if_pos hday, if_pos hday, ← makeTimespec_ofDay hday]
    rfl
  · rw [if_neg hday, if_neg hday]
    rfl

/-- The instants of a range: the midnight of a supported day, and one that the clock represents. -/
theorem getTimeRange_ok {first last : Timespec} (h : getTimeRange clock w = .ok (first, last)) :
    ∃ t, clock.Represents t ∧ (-2 ^ 40 < t ∧ t < 2 ^ 40) ∧
      (minDay ≤ t / 86400 ∧ t / 86400 ≤ maxDay) ∧
      first = ⟨t / 86400 * 86400, 0⟩ ∧ last = ⟨t, 0⟩ := by
  by_cases hfailure : fromIsoExtendedStringUtc clock w = 0
  · rw [getTimeRange_of_failure hfailure] at h
    cases h
  · rw [fromIso_eq_zero_iff] at hfailure
    push Not at hfailure
    obtain ⟨tm, hread, hepoch⟩ := hfailure
    rw [getTimeRange_of_parseTm hread hepoch rfl] at h
    split at h
    · rename_i hday
      cases h
      exact ⟨_, SystemClock.represents_toSeconds_fromTimeT,
        SystemClock.toSeconds_fromTimeT_bounds (timegm_bounds hread), hday, rfl, rfl⟩
    · cases h

end

/-! ### The query -/

/-- `config`, without the address of the database and the choice of the printed form. -/
structure Config where
  pointInTime : Bool
  stock : List UInt8
  «when» : List UInt8

/-- What a query has computed when it prints. -/
structure Answer where
  buyingBook : OrderBook
  sellingBook : OrderBook
  /-- The size of `orders`. -/
  processedOrders : Nat
  missedOrders : Nat
  deriving DecidableEq

/-- The two books of an answer. -/
def Answer.books (answer : Answer) : OrderBook × OrderBook :=
  (answer.buyingBook, answer.sellingBook)

section

variable {D F : Type} [Qdb D F] [DoubleArith F]

/-- The table of a stock's order records. -/
def ordersTable (stock : List UInt8) : List UInt8 := stock ++ ascii "_orders"

/-- `main`, between the connection to the database and the output: the answer and the
database afterwards. -/
def runQuery (clock : SystemClock) (host : ByteOrder)
    (T : Type) [UnorderedMap T UInt64 Order] (db : D) (cfg : Config) :
    Except Failure (Answer × D) := do
  let (rangeStart, rangeEnd) ← getTimeRange clock cfg.when
  let (snap, engine) ←
    if cfg.pointInTime then
      restoreSnapshot clock host db (ExecutionEngine.empty : ExecutionEngine T) cfg.stock rangeEnd
    else .ok (Timespec.zero, ExecutionEngine.empty)
  let orders ← getOrdersRecords db (ordersTable cfg.stock)
    (if snap ≠ Timespec.zero then snap else rangeStart) rangeEnd
  let records := (if snap ≠ Timespec.zero then lowerBound orders snap else orders).map Prod.snd
  let (answers, engine) ← orElseThrow .overflow (run? ExecutionEngine.runOrder? engine records)
  let db ←
    if cfg.pointInTime ∧ orders ≠ [] ∧ snap < getSnapshotTimestamp rangeEnd then
      storeSnapshot host db engine cfg.stock rangeEnd
    else .ok db
  return (⟨engine.buyBook, engine.sellBook, orders.length, answers.count false⟩, db)

/-- The loop over the records, with the exception of a table. -/
theorem runRecords_of_along {T : Type} [UnorderedMap T UInt64 Order] {engine : ExecutionEngine T}
    {records : List (OrderRecord F)}
    (h : Along ExecutionEngine.runOrder ExecutionEngine.Fits engine records) :
    orElseThrow .overflow (run? ExecutionEngine.runOrder? engine records)
      = .ok (outputs ExecutionEngine.runOrder engine records,
          run ExecutionEngine.runOrder engine records) := by
  rw [ExecutionEngine.run?_eq_some_iff.mpr ⟨h, rfl⟩]
  rfl

theorem runRecords_of_not_along {T : Type} [UnorderedMap T UInt64 Order]
    {engine : ExecutionEngine T} {records : List (OrderRecord F)}
    (h : ¬ Along ExecutionEngine.runOrder ExecutionEngine.Fits engine records) :
    orElseThrow .overflow (run? ExecutionEngine.runOrder? engine records) = .error .overflow := by
  cases hrun : run? ExecutionEngine.runOrder? engine records with
  | none => rfl
  | some out => exact absurd (ExecutionEngine.run?_eq_some_iff.mp hrun).1 h

/-- The books that a query ends with. -/
def queriedBooks (clock : SystemClock) (host : ByteOrder)
    (T : Type) [UnorderedMap T UInt64 Order] (db : D)
    (cfg : Config) : Except Failure (OrderBook × OrderBook) :=
  (runQuery clock host T db cfg).map fun r => r.1.books

end

end TradingDesk.Query
