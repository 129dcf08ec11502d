import TradingDesk.Core.Stable
import TradingDesk.Exec.Engine
import TradingDesk.Query.Qdb

/-!
# TradingDesk.Query.Orders

**Reading the order records** (`nasdaq_exec.cpp`, `get_orders_records`): seven columns
are read one after the other and joined by position. Only two of the seven counts
are compared, so a column that is too short is read past its end. On a lawful
database the columns are those of the same rows, and the result is these rows.
-/

namespace TradingDesk.Query

open TradingDesk.Core
open TradingDesk.Exec (OrderRecord)
open TradingDesk.Utils (Timespec)

/-! ### Failures -/

/-- How the program ends when it does not end with a result. -/
inductive Failure
  /-- A `std::exception`, which `main` reports. -/
  | exception (what : String)
  /-- The exception of a hash table that cannot be made as large as it is asked to, or that does
  not take a reference. -/
  | overflow
  /-- Undefined behaviour. -/
  | undefined
  /-- `std::terminate`: an exception left a `noexcept` function. -/
  | terminated
  deriving Repr, DecidableEq

/-- `throw_on_failure`. -/
def throwOnFailure {α : Type} (msg : String) : Except QdbError α → Except Failure α
  | .ok a => .ok a
  | .error _ => .error (.exception msg)

/-- A value that is missing where an exception was thrown. -/
def orElseThrow {α : Type} (failure : Failure) : Option α → Except Failure α
  | none => .error failure
  | some a => .ok a

@[simp] theorem ok_bind {α β : Type} (a : α) (f : α → Except Failure β) :
    (Except.ok a >>= f) = f a := rfl

@[simp] theorem error_bind {α β : Type} (failure : Failure) (f : α → Except Failure β) :
    (Except.error failure >>= f) = .error failure := rfl

/-! ### Columns -/

variable {D F : Type}

section

variable [Qdb D F]

/-- `get_ranges_int64`. -/
def getRangesInt64 (db : D) (table column : List UInt8) (first last : Timespec) :
    Except Failure (List (Timespec × Int64)) :=
  throwOnFailure "int64 get range" (Qdb.int64GetRanges db table column first last)

/-- `get_ranges_double`. -/
def getRangesDouble (db : D) (table column : List UInt8) (first last : Timespec) :
    Except Failure (List (Timespec × F)) :=
  throwOnFailure "int64 get range" (Qdb.doubleGetRanges db table column first last)

end

/-- The seven columns. -/
structure OrderColumns (F : Type) where
  orderType : List (Timespec × Int64)
  orderReference : List (Timespec × Int64)
  orderOriginalReference : List (Timespec × Int64)
  orderNewReference : List (Timespec × Int64)
  orderIsBuy : List (Timespec × Int64)
  orderShares : List (Timespec × Int64)
  orderPrice : List (Timespec × F)

/-- `points[i]`. -/
def pointAt {α : Type} (points : List (Timespec × α)) (i : Nat) : Except Failure (Timespec × α) :=
  match points[i]? with
  | none => .error .undefined
  | some point => .ok point

/-- The record that the body of the loop fills, and its timestamp. -/
def OrderColumns.recordAt (columns : OrderColumns F) (int64Undefined : Int64) (i : Nat) :
    Except Failure (Timespec × OrderRecord F) := do
  let orderType ← pointAt columns.orderType i
  let reference ← pointAt columns.orderReference i
  let originalReference ← pointAt columns.orderOriginalReference i
  let newReference ← pointAt columns.orderNewReference i
  let isBuy ← pointAt columns.orderIsBuy i
  let shares ← pointAt columns.orderShares i
  let price ← pointAt columns.orderPrice i
  return (orderType.1,
    { reference :=
        if originalReference.2 ≠ int64Undefined then originalReference.2.toUInt64
        else reference.2.toUInt64
      newReference := newReference.2.toUInt64
      shares := shares.2.toUInt64.toUInt32
      price := price.2
      orderType := orderType.2.toUInt64.toUInt8
      isBuy := decide (isBuy.2 ≠ 0) })

/-! ### The multimap of records -/

/-- `itch::order_records`, in iteration order. -/
abbrev OrderRecords (F : Type) := List (Timespec × OrderRecord F)

/-- `emplace_hint` at the end: behind every record that is not later. -/
def emplaceHint (result : OrderRecords F) (timestamp : Timespec) (record : OrderRecord F) :
    OrderRecords F :=
  result.takeWhile (fun e => decide (e.1 ≤ timestamp)) ++
    (timestamp, record) :: result.dropWhile fun e => decide (e.1 ≤ timestamp)

/-- The records from `lower_bound` to `cend`. -/
def lowerBound (orders : OrderRecords F) (timestamp : Timespec) : OrderRecords F :=
  orders.dropWhile fun e => decide (e.1 < timestamp)

theorem emplaceHint_eq (result : OrderRecords F) (timestamp : Timespec) (record : OrderRecord F) :
    emplaceHint result timestamp record = insertBehind Prod.fst result (timestamp, record) := rfl

theorem lowerBound_of_le {orders : OrderRecords F} {timestamp : Timespec}
    (h : ∀ e ∈ orders, timestamp ≤ e.1) : lowerBound orders timestamp = orders := by
  cases orders with
  | nil => rfl
  | cons e orders =>
      have hnot : ¬ e.1 < timestamp := not_lt.mpr (h e List.mem_cons_self)
      rw [lowerBound, List.dropWhile_cons_of_neg (by simpa using hnot)]

/-! ### The join -/

/-- `get_orders_records`. -/
def getOrdersRecords [Qdb D F] (db : D) (table : List UInt8) (first last : Timespec) :
    Except Failure (OrderRecords F) := do
  let columns : OrderColumns F :=
    { orderType := ← getRangesInt64 db table (ascii "type") first last
      orderReference := ← getRangesInt64 db table (ascii "reference") first last
      orderOriginalReference := ← getRangesInt64 db table (ascii "original_reference") first last
      orderNewReference := ← getRangesInt64 db table (ascii "new_reference") first last
      orderIsBuy := ← getRangesInt64 db table (ascii "is_buy") first last
      orderShares := ← getRangesInt64 db table (ascii "shares") first last
      orderPrice := ← getRangesDouble db table (ascii "price") first last }
  if columns.orderType.length ≠ columns.orderReference.length then
    throw (.exception "incoherence column count")
  (List.range columns.orderType.length).foldlM
    (fun result i => do
      let (timestamp, record) ← columns.recordAt (Qdb.int64Undefined D) i
      return emplaceHint result timestamp record)
    []

/-- The record of a row. -/
def OrderRow.toRecord (int64Undefined : Int64) (row : OrderRow F) : OrderRecord F where
  reference :=
    if row.originalReference ≠ int64Undefined then row.originalReference.toUInt64
    else row.reference.toUInt64
  newReference := row.newReference.toUInt64
  shares := row.shares.toUInt64.toUInt32
  price := row.price
  orderType := row.type.toUInt64.toUInt8
  isBuy := decide (row.isBuy ≠ 0)

/-- A row as an entry of the multimap. -/
def OrderRow.toEntry (int64Undefined : Int64) (row : OrderRow F) : Timespec × OrderRecord F :=
  (row.timestamp, row.toRecord int64Undefined)

/-! ### Columns of rows -/

/-- The points at one position are a row: they have the row's timestamp and its values. -/
structure OrderColumns.PointsAre (columns : OrderColumns F)
    (i : Nat) (row : OrderRow F) : Prop where
  orderType : columns.orderType[i]? = some (row.timestamp, row.type)
  orderReference : columns.orderReference[i]? = some (row.timestamp, row.reference)
  orderOriginalReference :
    columns.orderOriginalReference[i]? = some (row.timestamp, row.originalReference)
  orderNewReference : columns.orderNewReference[i]? = some (row.timestamp, row.newReference)
  orderIsBuy : columns.orderIsBuy[i]? = some (row.timestamp, row.isBuy)
  orderShares : columns.orderShares[i]? = some (row.timestamp, row.shares)
  orderPrice : columns.orderPrice[i]? = some (row.timestamp, row.price)

/-- The columns hold these rows: as many as there are types, each at its position. Other
columns may go on behind them. -/
structure OrderColumns.HaveRows (columns : OrderColumns F) (rows : List (OrderRow F)) : Prop where
  count : columns.orderType.length = rows.length
  points : ∀ i row, rows[i]? = some row → columns.PointsAre i row

theorem OrderColumns.PointsAre.recordAt {columns : OrderColumns F} {i : Nat} {row : OrderRow F}
    (h : columns.PointsAre i row) (int64Undefined : Int64) :
    columns.recordAt int64Undefined i = .ok (row.toEntry int64Undefined) := by
  simp only [OrderColumns.recordAt, pointAt, h.orderType, h.orderReference,
    h.orderOriginalReference, h.orderNewReference, h.orderIsBuy, h.orderShares, h.orderPrice]
  rfl

/-- **The loop over columns of rows**: after `n` rounds, the first `n` rows are inserted. -/
theorem OrderColumns.HaveRows.foldlM_recordAt {columns : OrderColumns F} {rows : List (OrderRow F)}
    (h : columns.HaveRows rows) (int64Undefined : Int64) {n : Nat} (hn : n ≤ rows.length) :
    (List.range n).foldlM
        (fun result i => do
          let (timestamp, record) ← columns.recordAt int64Undefined i
          return emplaceHint result timestamp record)
        ([] : OrderRecords F)
      = .ok (((rows.take n).map (OrderRow.toEntry int64Undefined)).foldl
          (insertBehind Prod.fst) []) := by
  induction n with
  | zero => rfl
  | succ n ih =>
      have hrow : rows[n]? = some rows[n] := List.getElem?_eq_getElem (by omega)
      rw [List.range_succ, List.foldlM_append, ih (by omega), List.take_add_one, List.map_append,
        List.foldl_append, hrow]
      simp only [List.foldlM_cons, List.foldlM_nil, (h.points n _ hrow).recordAt, ok_bind,
        emplaceHint_eq]
      rfl

section

variable [Qdb D F]

/-- The seven calls succeed, and return these columns. -/
structure ReturnsColumns (db : D) (table : List UInt8) (first last : Timespec)
    (columns : OrderColumns F) : Prop where
  orderType : Qdb.int64GetRanges db table (ascii "type") first last = .ok columns.orderType
  orderReference :
    Qdb.int64GetRanges db table (ascii "reference") first last = .ok columns.orderReference
  orderOriginalReference : Qdb.int64GetRanges db table (ascii "original_reference") first last
    = .ok columns.orderOriginalReference
  orderNewReference :
    Qdb.int64GetRanges db table (ascii "new_reference") first last = .ok columns.orderNewReference
  orderIsBuy : Qdb.int64GetRanges db table (ascii "is_buy") first last = .ok columns.orderIsBuy
  orderShares : Qdb.int64GetRanges db table (ascii "shares") first last = .ok columns.orderShares
  orderPrice : Qdb.doubleGetRanges db table (ascii "price") first last = .ok columns.orderPrice

variable {db : D} {table : List UInt8} {first last : Timespec} {columns : OrderColumns F}

/-- What is done with the columns. -/
theorem ReturnsColumns.getOrdersRecords_eq (h : ReturnsColumns db table first last columns) :
    getOrdersRecords db table first last
      = if columns.orderType.length ≠ columns.orderReference.length then
          .error (.exception "incoherence column count")
        else
          (List.range columns.orderType.length).foldlM
            (fun result i => do
              let (timestamp, record) ← columns.recordAt (Qdb.int64Undefined D) i
              return emplaceHint result timestamp record)
            [] := by
  simp only [getOrdersRecords, getRangesInt64, getRangesDouble, h.orderType, h.orderReference,
    h.orderOriginalReference, h.orderNewReference, h.orderIsBuy, h.orderShares, h.orderPrice,
    throwOnFailure, ok_bind]
  split <;> rfl

/-- The join of columns that hold rows, the reference column no more than the rows. -/
theorem ReturnsColumns.getOrdersRecords_of_haveRows (h : ReturnsColumns db table first last columns)
    {rows : List (OrderRow F)} (hrows : columns.HaveRows rows)
    (hcount : columns.orderType.length = columns.orderReference.length) :
    getOrdersRecords db table first last
      = .ok ((rows.map (OrderRow.toEntry (Qdb.int64Undefined D))).foldl
          (insertBehind Prod.fst) []) := by
  rw [h.getOrdersRecords_eq, if_neg (not_not.mpr hcount), hrows.count,
    hrows.foldlM_recordAt _ le_rfl, List.take_length]

end

/-! ### The join on a lawful database -/

/-- The columns of rows. -/
def OrderColumns.ofRows (rows : List (OrderRow F)) : OrderColumns F where
  orderType := rows.map fun row => (row.timestamp, row.type)
  orderReference := rows.map fun row => (row.timestamp, row.reference)
  orderOriginalReference := rows.map fun row => (row.timestamp, row.originalReference)
  orderNewReference := rows.map fun row => (row.timestamp, row.newReference)
  orderIsBuy := rows.map fun row => (row.timestamp, row.isBuy)
  orderShares := rows.map fun row => (row.timestamp, row.shares)
  orderPrice := rows.map fun row => (row.timestamp, row.price)

theorem OrderColumns.haveRows_ofRows (rows : List (OrderRow F)) :
    (OrderColumns.ofRows rows).HaveRows rows := by
  refine ⟨List.length_map _, fun i row hrow => ?_⟩
  have hpoint : ∀ {α : Type} (value : OrderRow F → α),
      (rows.map fun row => (row.timestamp, value row))[i]? = some (row.timestamp, value row) := by
    intro α value
    rw [List.getElem?_map, hrow]
    rfl
  exact ⟨hpoint _, hpoint _, hpoint _, hpoint _, hpoint _, hpoint _, hpoint _⟩

/-- **The rows of a range**, in order, as records. -/
theorem getOrdersRecords_eq [LawfulQdb D F] (db : D) (table : List UInt8) (first last : Timespec) :
    getOrdersRecords db table first last
      = .ok ((between OrderRow.timestamp (LawfulQdb.rows db table) first last).map
          fun row => (row.timestamp, row.toRecord (Qdb.int64Undefined D))) := by
  have hsorted := pairwise_between (LawfulQdb.rows_sorted db table) first last
  have hint64 : ∀ column value, (column, value) ∈ int64Columns F →
      Qdb.int64GetRanges db table column first last
        = .ok ((between OrderRow.timestamp (LawfulQdb.rows db table) first last).map
            fun row => (row.timestamp, value row)) :=
    fun _ _ hcolumn => LawfulQdb.int64GetRanges_eq db table hcolumn first last
  have hreturns : ReturnsColumns db table first last
      (OrderColumns.ofRows (between OrderRow.timestamp (LawfulQdb.rows db table) first last)) := by
    refine ⟨?_, ?_, ?_, ?_, ?_, ?_, LawfulQdb.doubleGetRanges_eq db table first last⟩ <;>
      exact hint64 _ _ (by simp [int64Columns])
  -- all columns come from the same rows, so the check of their lengths passes
  rw [hreturns.getOrdersRecords_of_haveRows (OrderColumns.haveRows_ofRows _)
    (by simp [OrderColumns.ofRows])]
  exact congrArg Except.ok (foldl_insertBehind_of_sorted (List.pairwise_map.mpr hsorted))

end TradingDesk.Query
