import TradingDesk.Exec.Checkpoint
import TradingDesk.Exec.PartialRead
import TradingDesk.Query.Orders
import TradingDesk.Utils.Gregorian
import TradingDesk.Utils.Stringify

/-!
# TradingDesk.Query.Snapshot

**Snapshots in the database** (`nasdaq_exec.cpp`, `restore_snapshot` and
`store_snapshot`). A snapshot is stored under the stock and the quarter of an hour it
is taken in; a query looks for the latest one of its day that is not after its own
quarter, and reads it into the engine. Where `restore_snapshot` answers with the null
instant, the caller replays the day into the engine it passed.
-/

namespace TradingDesk.Query

open TradingDesk.Core
open TradingDesk.Exec (Side Order OrderRecord ExecutionEngine loadedOrders)
open TradingDesk.Utils
open UnorderedMap (find?)

/-! ### Keys -/

/-- `get_snapshot_timestamp`: the start of the quarter of an hour. The remainder takes
the sign of the seconds. -/
def getSnapshotTimestamp (w : Timespec) : Timespec := ⟨w.sec - w.sec.tmod 900, 0⟩

/-- `make_snapshot_key`. -/
def makeSnapshotKey (stock : List UInt8) (w : Timespec) : List UInt8 :=
  let w := getSnapshotTimestamp w
  stock ++ ascii "_orders_snap_" ++ toIsoExtendedStringUtc w.sec

/-- The beginning of the keys of a day, `{}_orders_snap_{:04}-{:02}-{:02}T`. -/
def snapshotsOfDay (stock : List UInt8) (requestedDay : Ymd) : List UInt8 :=
  stock ++ ascii "_orders_snap_" ++ rightAlign 4 (natText requestedDay.year) ++ ascii "-" ++
    rightAlign 2 (natText requestedDay.month) ++ ascii "-" ++
    rightAlign 2 (natText requestedDay.day) ++ ascii "T"

/-- `std::string::rfind` of a character. -/
def rfind (c : Char) : List UInt8 → Option Nat
  | [] => none
  | b :: s =>
    match rfind c s with
    | some idx => some (idx + 1)
    | none => if b = c.toUInt8 then some 0 else none

/-- The loop over the keys: the last one before the first that `strcmp` puts above
`bestSnapKey`. Keys are C strings, so there is no zero byte in them, and a string
compares below every longer one that starts with it. -/
def findMatch (bestSnapKey : List UInt8) : List (List UInt8) → Option (List UInt8) →
    Option (List UInt8)
  | [], found => found
  | key :: results, found =>
    if bestSnapKey < key then found else findMatch bestSnapKey results (some key)

/-- From the answer of the prefix read to the key to load. Without a key that is early
enough, a string is made of the null `match` before it is compared with null. -/
def chooseKey (bestSnapKey : List UInt8) : Except QdbError (List (List UInt8)) →
    Except Failure (Option (List UInt8 × Nat))
  | .error .aliasNotFound => .ok none
  | .error .other => .error (.exception "cannot prefix get")
  | .ok [] => .ok none
  | .ok results =>
    match findMatch bestSnapKey results none with
    | none => .error .undefined
    | some snapKey => .ok ((rfind '_' snapKey).map fun idx => (snapKey, idx))

/-! ### Restoring and storing -/

/-- The date of an instant and its components. `extract_date` is `noexcept`. -/
def requestedDay (w : Timespec) : Except Failure Ymd := do
  let date ← orElseThrow .terminated (extractDate w)
  orElseThrow (.exception "Year is out of valid range: 1400..9999") date.ymd

section

variable {D T F : Type} [Qdb D F] [UnorderedMap T UInt64 Order]

/-- The part of `restore_snapshot` that chooses the key to load, with the position of
its last underscore; `none` if there is nothing to load. -/
def selectSnapshot (db : D) (stock : List UInt8) (w : Timespec) :
    Except Failure (Option (List UInt8 × Nat)) := do
  let ymd ← requestedDay w
  chooseKey (makeSnapshotKey stock w) (Qdb.prefixGet db (snapshotsOfDay stock ymd) 100)

/-- The rest of `restore_snapshot`: read the blob of a key into the engine, and answer
with the instant in the key. -/
def loadSnapshot (clock : SystemClock) (host : ByteOrder)
    (db : D) (engine : ExecutionEngine T) (snapKey : List UInt8)
    (idx : Nat) : Except Failure (Timespec × ExecutionEngine T) :=
  match Qdb.blobGet db snapKey with
  | .error _ => .error (.exception "cannot get snapshot")
  | .ok snapData =>
    match engine.deserializeState host (.ofList snapData 0) (.start snapData.length) with
    | (none, _, _) => .error .overflow
    | (some false, _, engine) => .ok (Timespec.zero, engine)
    | (some true, _, engine) =>
      let tp := fromIsoExtendedStringUtc clock (snapKey.drop (idx + 1))
      if tp = 0 then .ok (Timespec.zero, engine) else .ok (⟨clock.toSeconds tp, 0⟩, engine)

/-- `restore_snapshot`, with the engine it leaves behind. -/
def restoreSnapshot (clock : SystemClock) (host : ByteOrder)
    (db : D) (engine : ExecutionEngine T) (stock : List UInt8)
    (w : Timespec) : Except Failure (Timespec × ExecutionEngine T) := do
  match ← selectSnapshot db stock w with
  | none => return (Timespec.zero, engine)
  | some (snapKey, idx) => loadSnapshot clock host db engine snapKey idx

/-- `store_snapshot`. -/
def storeSnapshot (host : ByteOrder) (db : D) (engine : ExecutionEngine T) (stock : List UInt8)
    (w : Timespec) : Except Failure D :=
  let w := getSnapshotTimestamp w
  throwOnFailure "cannot store snapshot"
    (Qdb.blobUpdate db (makeSnapshotKey stock w) (engine.serializeState host))

end

/-! ### Failed restores -/

section

variable {D T F : Type} [Qdb D F] [UnorderedMap T UInt64 Order]
variable {clock : SystemClock} {host : ByteOrder} {db : D} {engine engine' : ExecutionEngine T}

theorem restoreSnapshot_of_none {stock : List UInt8} {w : Timespec}
    (h : selectSnapshot db stock w = .ok none) :
    restoreSnapshot clock host db engine stock w = .ok (Timespec.zero, engine) := by
  rw [restoreSnapshot, h]
  rfl

theorem restoreSnapshot_of_some {stock snapKey : List UInt8} {idx : Nat} {w : Timespec}
    (h : selectSnapshot db stock w = .ok (some (snapKey, idx))) :
    restoreSnapshot clock host db engine stock w
      = loadSnapshot clock host db engine snapKey idx := by
  rw [restoreSnapshot, h]
  rfl

/-- The epoch itself reads as the null instant, which it is. -/
theorem loadSnapshot_of_read {snapKey snapData : List UInt8} {idx : Nat} {p : Cursor} {u : Int}
    (hblob : Qdb.blobGet db snapKey = .ok snapData)
    (hread : engine.deserializeState host (.ofList snapData 0) (.start snapData.length)
      = (some true, p, engine'))
    (hinstant : fromIsoExtendedStringUtc clock (snapKey.drop (idx + 1)) = clock.fromTimeT u)
    (hu : clock.Represents u) :
    loadSnapshot clock host db engine snapKey idx = .ok (⟨u, 0⟩, engine') := by
  have hseconds := SystemClock.toSeconds_fromTimeT hu
  rw [loadSnapshot, hblob]
  dsimp only
  rw [hread, hinstant]
  dsimp only
  by_cases hzero : clock.fromTimeT u = 0
  · rw [hzero, SystemClock.toSeconds, Int.zero_tdiv] at hseconds
    rw [if_pos hzero, ← hseconds]
    rfl
  · rw [if_neg hzero, hseconds]

theorem loadSnapshot_of_throw {snapKey snapData : List UInt8} {idx : Nat}
    (hblob : Qdb.blobGet db snapKey = .ok snapData)
    (hthrows :
      (engine.deserializeState host (.ofList snapData 0) (.start snapData.length)).1 = none) :
    loadSnapshot clock host db engine snapKey idx = .error .overflow := by
  rw [loadSnapshot, hblob]
  rcases hread : engine.deserializeState host (.ofList snapData 0) (.start snapData.length)
    with ⟨done, p, engine'⟩
  rw [hread] at hthrows
  obtain rfl : done = none := hthrows
  simp only [hread]

/-- `loadSnapshot` returns only after a read of the blob. -/
theorem loadSnapshot_ok {snapKey : List UInt8} {idx : Nat} {ts : Timespec}
    (h : loadSnapshot clock host db engine snapKey idx = .ok (ts, engine')) :
    ∃ snapData done p, Qdb.blobGet db snapKey = .ok snapData ∧
      engine.deserializeState host (.ofList snapData 0) (.start snapData.length)
        = (some done, p, engine') := by
  rw [loadSnapshot] at h
  cases hblob : Qdb.blobGet db snapKey with
  | error err =>
      rw [hblob] at h
      cases h
  | ok snapData =>
      rw [hblob] at h
      dsimp only at h
      rcases hread : engine.deserializeState host (.ofList snapData 0) (.start snapData.length)
        with ⟨_ | done, p, engine₁⟩
      · rw [hread] at h
        cases h
      · have hengine : engine₁ = engine' := by
          rw [hread] at h
          cases done with
          | false => exact (Prod.mk.inj (Except.ok.inj h)).2
          | true =>
              dsimp only at h
              split at h <;> exact (Prod.mk.inj (Except.ok.inj h)).2
        exact ⟨snapData, done, p, rfl, hengine ▸ hread⟩

/-- What a restore reads into the engine, it holds already: a chosen blob either ends
before its first size field does, or the orders it has in full, on each side it gets
to, are the engine's own. -/
def RestoreKeeps (host : ByteOrder) (db : D) (engine : ExecutionEngine T) (stock : List UInt8)
    (w : Timespec) : Prop :=
  ∀ snapKey idx snapData, selectSnapshot db stock w = .ok (some (snapKey, idx)) →
    Qdb.blobGet db snapKey = .ok snapData →
    ∀ s entries, loadedOrders host (.ofList snapData 0) (.start snapData.length) s = some entries →
      ∀ reference, entries.lookup reference = find? (engine.side s) reference

/-- **When a failed restore leaves the engine as it was.** -/
theorem failed_restore_keeps_orders_iff {stock : List UInt8} {w : Timespec}
    (h : restoreSnapshot clock host db engine stock w = .ok (Timespec.zero, engine')) :
    engine'.SameOrders engine ↔ RestoreKeeps host db engine stock w := by
  rcases hselect : selectSnapshot db stock w with failure | _ | ⟨snapKey, idx⟩
  · rw [restoreSnapshot, hselect] at h
    cases h
  · -- nothing to load
    rw [restoreSnapshot_of_none hselect] at h
    obtain rfl : engine = engine' := (Prod.mk.inj (Except.ok.inj h)).2
    refine ⟨fun _ snapKey idx snapData hsome => ?_, fun _ => ⟨rfl, rfl⟩⟩
    rw [hselect] at hsome
    cases hsome
  · rw [restoreSnapshot_of_some hselect] at h
    obtain ⟨snapData, done, p, hblob, hread⟩ := loadSnapshot_ok h
    -- a side that the reader got to holds what was loaded, the other what it held
    have hsides := ExecutionEngine.find?_deserializeState hread
    rw [ExecutionEngine.sameOrders_iff]
    constructor
    · intro hsame snapKey' idx' snapData' hselect' hblob' s entries hentries reference
      rw [hselect] at hselect'
      cases hselect'
      rw [hblob] at hblob'
      cases hblob'
      have hside := hsides s
      rw [hentries] at hside
      exact (congrFun hside reference).symm.trans (congrFun (congrFun hsame s) reference)
    · intro hkeeps
      funext s reference
      have hside := congrFun (hsides s) reference
      cases hentries : loadedOrders host (.ofList snapData 0) (.start snapData.length) s with
      | none =>
          rw [hentries] at hside
          exact hside
      | some entries =>
          rw [hentries] at hside
          exact hside.trans (hkeeps snapKey idx snapData hselect hblob s entries hentries reference)

end

/-! ### A snapshot that is cut short -/

/-- An engine of the plainest tables. -/
abbrev SampleEngine := ExecutionEngine (AssocList UInt64 Order)

/-- A database with one blob. -/
def MemoryDb.ofBlob (key content : List UInt8) : MemoryDb Rat :=
  ⟨[(key, content)], [], List.pairwise_singleton _ _, fun _ h => absurd h List.not_mem_nil⟩

theorem MemoryDb.blobGet_ofBlob {key content k b : List UInt8}
    (h : (MemoryDb.ofBlob key content).blobGet k = .ok b) : b = content := by
  rw [MemoryDb.blobGet, MemoryDb.ofBlob, List.lookup_cons, List.lookup_nil] at h
  by_cases hk : k = key
  · rw [hk, beq_self_eq_true] at h
    exact (Except.ok.inj h).symm
  · rw [beq_false_of_ne hk] at h
    cases h

/-- Ten minutes past ten on the first day of 2020. -/
def sampleInstant : Timespec := ⟨1577873400, 0⟩

/-- A database with the first `n` bytes of the sample engine's snapshot. -/
def cutDb (n : Nat) : MemoryDb Rat :=
  .ofBlob (makeSnapshotKey (ascii "AAPL") sampleInstant)
    ((Exec.sampleEngine.serializeState .little).take n)

/-- A snapshot cut inside its first size field leaves the orders of the engine it is read
into alone. -/
theorem cut_size_field_keeps_orders :
    ∃ engine',
      restoreSnapshot .nanoseconds .little (cutDb 7) Exec.sampleEngine (ascii "AAPL") sampleInstant
        = .ok (Timespec.zero, engine') ∧ engine'.SameOrders Exec.sampleEngine := by
  have hrun : (restoreSnapshot .nanoseconds .little (cutDb 7) Exec.sampleEngine (ascii "AAPL")
      sampleInstant).toOption.map Prod.fst = some Timespec.zero := by decide +kernel
  rcases hrestore :
      restoreSnapshot .nanoseconds .little (cutDb 7) Exec.sampleEngine (ascii "AAPL") sampleInstant
    with failure | ⟨ts, engine'⟩
  · rw [hrestore] at hrun
    cases hrun
  · rw [hrestore] at hrun
    obtain rfl : ts = Timespec.zero := Option.some.inj hrun
    refine ⟨engine', rfl, (failed_restore_keeps_orders_iff hrestore).mpr ?_⟩
    intro snapKey idx snapData _ hblob s entries hentries
    obtain rfl := MemoryDb.blobGet_ofBlob hblob
    have hlength : ((Exec.sampleEngine.serializeState .little).take 7).length = 7 := by
      decide +kernel
    rw [hlength] at hentries
    cases s <;> cases hentries

/-- **A snapshot cut inside its selling side.** The restore answers with the null
instant, and the empty engine it was given holds the buying side. -/
theorem cut_snapshot_fills_engine :
    ∃ engine',
      restoreSnapshot .nanoseconds .little (cutDb 47) (ExecutionEngine.empty : SampleEngine)
        (ascii "AAPL") sampleInstant = .ok (Timespec.zero, engine') ∧
      ¬ engine'.SameOrders ExecutionEngine.empty := by
  have hrun :
      (restoreSnapshot .nanoseconds .little (cutDb 47) (ExecutionEngine.empty : SampleEngine)
      (ascii "AAPL") sampleInstant).toOption.map (fun r => (r.1, find? r.2.allBuyOrders 1))
      = some (Timespec.zero, some ⟨1000, 10⟩) := by decide +kernel
  rcases hrestore :
      restoreSnapshot .nanoseconds .little (cutDb 47) (ExecutionEngine.empty : SampleEngine)
    (ascii "AAPL") sampleInstant with failure | ⟨ts, engine'⟩
  · rw [hrestore] at hrun
    cases hrun
  · rw [hrestore] at hrun
    obtain ⟨rfl, horder⟩ := Prod.mk.inj (Option.some.inj hrun)
    refine ⟨engine', rfl, fun hsame => ?_⟩
    rw [hsame.1] at horder
    cases horder

end TradingDesk.Query
