import Mathlib.Data.List.Sort
import TradingDesk.Core.Decimal
import TradingDesk.Core.Timeline
import TradingDesk.Utils.Timespec

/-!
# TradingDesk.Query.Qdb

**The database** as the query program uses it: blobs under byte-string keys, and time
series read column by column. `Qdb` are the calls, which may return anything;
`LawfulQdb` says what they return on a database that keeps its word, in terms of the
blobs and the rows that are stored. `MemoryDb` is such a database.
-/

namespace TradingDesk.Query

open TradingDesk.Core
open TradingDesk.Utils (Timespec)

/-- A `qdb_error_t` that is a failure. -/
inductive QdbError
  /-- `qdb_e_alias_not_found`. -/
  | aliasNotFound
  | other
  deriving Repr, DecidableEq

/-- The calls to the database, on databases `D` with doubles `F`. -/
class Qdb (D : Type) (F : outParam Type) where
  /-- `qdb_prefix_get`. -/
  prefixGet : D → (start : List UInt8) → (maxCount : Nat) → Except QdbError (List (List UInt8))
  /-- `qdb_blob_get`. -/
  blobGet : D → (key : List UInt8) → Except QdbError (List UInt8)
  /-- `qdb_blob_update`. -/
  blobUpdate : D → (key content : List UInt8) → Except QdbError D
  /-- `qdb_ts_int64_get_ranges` of one range. -/
  int64GetRanges : D → (table column : List UInt8) → (first last : Timespec) →
    Except QdbError (List (Timespec × Int64))
  /-- `qdb_ts_double_get_ranges` of one range. -/
  doubleGetRanges : D → (table column : List UInt8) → (first last : Timespec) →
    Except QdbError (List (Timespec × F))
  /-- `qdb_int64_undefined`. -/
  int64Undefined : Int64

/-- One row of an orders table. -/
structure OrderRow (F : Type) where
  timestamp : Timespec
  type : Int64
  reference : Int64
  originalReference : Int64
  newReference : Int64
  isBuy : Int64
  shares : Int64
  price : F
  deriving Repr, DecidableEq

/-- The integer columns of an orders table, with their values in a row. -/
def int64Columns (F : Type) : List (List UInt8 × (OrderRow F → Int64)) :=
  [(ascii "type", OrderRow.type), (ascii "reference", OrderRow.reference),
    (ascii "original_reference", OrderRow.originalReference),
    (ascii "new_reference", OrderRow.newReference), (ascii "is_buy", OrderRow.isBuy),
    (ascii "shares", OrderRow.shares)]

/-- The columns have different names. -/
theorem lookup_int64Columns {F : Type} {column : List UInt8} {value : OrderRow F → Int64}
    (h : (column, value) ∈ int64Columns F) : (int64Columns F).lookup column = some value := by
  simp only [int64Columns, List.mem_cons, List.not_mem_nil, or_false, Prod.mk.injEq] at h
  rcases h with ⟨rfl, rfl⟩ | ⟨rfl, rfl⟩ | ⟨rfl, rfl⟩ | ⟨rfl, rfl⟩ | ⟨rfl, rfl⟩ | ⟨rfl, rfl⟩ <;> rfl

/-- A database whose calls succeed and answer from what is stored: a blob read returns
the bytes stored last, a prefix read the matching keys in byte order, a range read the
rows of the half-open range in the order of their timestamps. -/
class LawfulQdb (D : Type) (F : outParam Type) extends Qdb D F where
  /-- The stored blobs, by key. -/
  blobs : D → List (List UInt8 × List UInt8)
  /-- The rows of a table. -/
  rows : D → List UInt8 → List (OrderRow F)
  blobs_sorted (db : D) : (blobs db).Pairwise fun a b => a.1 < b.1
  rows_sorted (db : D) (table : List UInt8) :
    (rows db table).Pairwise fun a b => a.timestamp ≤ b.timestamp
  /-- Where nothing matches, the answer is an error or an empty list. -/
  prefixGet_eq (db : D) (p : List UInt8) (n : Nat) :
    prefixGet db p n = .ok ((((blobs db).map Prod.fst).filter fun k => p.isPrefixOf k).take n) ∨
      (((blobs db).map Prod.fst).filter fun k => p.isPrefixOf k) = [] ∧
        prefixGet db p n = .error .aliasNotFound
  blobGet_eq {db : D} {k b : List UInt8} (h : (blobs db).lookup k = some b) : blobGet db k = .ok b
  blobUpdate_eq (db : D) (k b : List UInt8) : ∃ db', blobUpdate db k b = .ok db' ∧
    (∀ k', (blobs db').lookup k' = if k' = k then some b else (blobs db).lookup k') ∧
    rows db' = rows db
  int64GetRanges_eq (db : D) (table : List UInt8) {column : List UInt8} {value : OrderRow F → Int64}
    (h : (column, value) ∈ int64Columns F) (first last : Timespec) :
    int64GetRanges db table column first last
      = .ok ((between OrderRow.timestamp (rows db table) first last).map
          fun row => (row.timestamp, value row))
  doubleGetRanges_eq (db : D) (table : List UInt8) (first last : Timespec) :
    doubleGetRanges db table (ascii "price") first last
      = .ok ((between OrderRow.timestamp (rows db table) first last).map
          fun row => (row.timestamp, row.price))

/-! ### A database in memory -/

/-- Blobs sorted by key, and tables of rows sorted by time. -/
structure MemoryDb (F : Type) where
  blobs : List (List UInt8 × List UInt8)
  tables : List (List UInt8 × List (OrderRow F))
  blobs_sorted : blobs.Pairwise fun a b => a.1 < b.1
  tables_sorted : ∀ t ∈ tables, t.2.Pairwise fun a b => a.timestamp ≤ b.timestamp

namespace MemoryDb

variable {F : Type}

/-- The rows of a table; a table that does not exist has none. -/
def rows (db : MemoryDb F) (table : List UInt8) : List (OrderRow F) :=
  (db.tables.lookup table).getD []

theorem rows_sorted (db : MemoryDb F) (table : List UInt8) :
    (db.rows table).Pairwise fun a b => a.timestamp ≤ b.timestamp := by
  unfold rows
  cases h : db.tables.lookup table with
  | none => exact List.Pairwise.nil
  | some t =>
      obtain ⟨before, after, heq, -⟩ := List.lookup_eq_some_iff.mp h
      exact db.tables_sorted (table, t) (by rw [heq]; simp)

/-- The blobs with one key replaced or added. -/
def insert (blobs : List (List UInt8 × List UInt8)) (k b : List UInt8) :
    List (List UInt8 × List UInt8) :=
  (blobs.filter fun e => decide (e.1 < k)) ++ (k, b) :: (blobs.filter fun e => decide (k < e.1))

theorem insert_sorted {blobs : List (List UInt8 × List UInt8)}
    (h : blobs.Pairwise fun a b => a.1 < b.1) (k b : List UInt8) :
    (insert blobs k b).Pairwise fun a b => a.1 < b.1 := by
  rw [insert, List.pairwise_append, List.pairwise_cons]
  refine ⟨h.filter _, ⟨?_, h.filter _⟩, ?_⟩
  · intro e he
    exact of_decide_eq_true (List.mem_filter.mp he).2
  · intro e he e' he'
    have hbelow : e.1 < k := of_decide_eq_true (List.mem_filter.mp he).2
    obtain rfl | he' := List.mem_cons.mp he'
    · exact hbelow
    · exact List.lt_trans hbelow (of_decide_eq_true (List.mem_filter.mp he').2)

theorem lookup_filter (blobs : List (List UInt8 × List UInt8)) (p : List UInt8 → Bool)
    (k : List UInt8) :
    (blobs.filter fun e => p e.1).lookup k = if p k then blobs.lookup k else none := by
  induction blobs with
  | nil => simp
  | cons e blobs ih =>
      obtain ⟨k', b⟩ := e
      rw [List.filter_cons, List.lookup_cons]
      by_cases hk : k = k'
      · subst hk
        cases hp : p k <;> simp [hp, ih]
      · rw [beq_false_of_ne hk]
        cases hp : p k'
        · exact ih
        · rw [if_pos rfl, List.lookup_cons, beq_false_of_ne hk]
          exact ih

theorem lookup_insert (blobs : List (List UInt8 × List UInt8)) (k b k' : List UInt8) :
    (insert blobs k b).lookup k' = if k' = k then some b else blobs.lookup k' := by
  rw [insert, List.lookup_append, List.lookup_cons, lookup_filter blobs fun x => decide (x < k),
    lookup_filter blobs fun x => decide (k < x)]
  by_cases hk : k' = k
  · subst hk
    simp [List.lt_irrefl k']
  · rw [beq_false_of_ne hk, if_neg hk]
    by_cases h : k' < k
    · simp [h, List.lt_asymm h]
    · by_cases h' : k < k'
      · simp [h, h']
      · exact absurd (List.le_antisymm h' h) hk

/-- The blob stored under a key. -/
def blobGet (db : MemoryDb F) (k : List UInt8) : Except QdbError (List UInt8) :=
  match db.blobs.lookup k with
  | none => .error .aliasNotFound
  | some b => .ok b

/-- The database after a blob was written. -/
def blobUpdate (db : MemoryDb F) (k b : List UInt8) : MemoryDb F :=
  { db with blobs := insert db.blobs k b, blobs_sorted := insert_sorted db.blobs_sorted k b }

instance : LawfulQdb (MemoryDb F) F where
  prefixGet db p n :=
    match (db.blobs.map Prod.fst).filter fun k => p.isPrefixOf k with
    | [] => .error .aliasNotFound
    | keys => .ok (keys.take n)
  blobGet := blobGet
  blobUpdate db k b := .ok (db.blobUpdate k b)
  int64GetRanges db table column first last :=
    match (int64Columns F).lookup column with
    | none => .error .other
    | some value => .ok ((between OrderRow.timestamp (db.rows table) first last).map
        fun row => (row.timestamp, value row))
  doubleGetRanges db table column first last :=
    if column = ascii "price" then
      .ok ((between OrderRow.timestamp (db.rows table) first last).map
        fun row => (row.timestamp, row.price))
    else .error .other
  int64Undefined := Int64.minValue
  blobs := blobs
  rows := rows
  blobs_sorted := blobs_sorted
  rows_sorted := rows_sorted
  prefixGet_eq db p n := by
    cases h : (db.blobs.map Prod.fst).filter fun k => p.isPrefixOf k with
    | nil => exact Or.inr ⟨rfl, rfl⟩
    | cons k keys => exact Or.inl rfl
  blobGet_eq h := by rw [blobGet, h]
  blobUpdate_eq db k b := ⟨_, rfl, lookup_insert db.blobs k b, rfl⟩
  int64GetRanges_eq db table column value h first last := by
    rw [lookup_int64Columns h]
  doubleGetRanges_eq db table first last := if_pos rfl

end MemoryDb

end TradingDesk.Query
