import Mathlib.Data.List.ModifyLast
import TradingDesk.Core.Attempts
import TradingDesk.Generator.Market

/-!
# TradingDesk.Generator.Batch

**Writing in batches** (`generate_transaction`, `generate_error_transaction`, `push_to_db` and the
loops of `generate_transaction_log` of `generator.cpp`). A transaction is a new row of a batch
table, and five values that are set in it one by one; what was collected is pushed at the end of
every day. Each call may fail, and the first one that does ends the program; so does a message.

The batch table is that of the database's client: a new row is empty, values are set in the last
row, and only a push makes rows part of the table.
-/

namespace TradingDesk.Generator

open TradingDesk.Core
open TradingDesk.Utils

/-! ### Calls -/

/-- A value of a row. -/
inductive Cell
  | int64 (v : ℤ)
  | double (v : ℚ)

/-- The calls on a `qdb_batch_table_t`. -/
inductive BatchCall
  | startRow (ts : Timespec)
  | rowSet (index : ℕ) (value : Cell)
  | push

/-- A call, and what is thrown if it fails. -/
abbrev CheckedCall := BatchCall × String

/-- The calls of a transaction, erroneous or not. -/
def Row.calls (row : Row ℚ) : List CheckedCall :=
  [(.startRow row.ts, "cannot start new row"),
    (.rowSet 0 (.int64 row.security), "cannot set security"),
    (.rowSet 1 (.double row.price), "cannot set security value"),
    (.rowSet 2 (.int64 row.volume), "cannot set volume"),
    (.rowSet 3 (.int64 row.agent), "cannot set agent"),
    (.rowSet 4 (.int64 row.counterparty), "cannot set counterparty")]

/-- `push_to_db`. -/
def pushToDb : List CheckedCall := [(.push, "cannot push batch")]

/-! ### The program -/

section

variable {G : Type} (e : Engine G) (build : FmtBuild) (cfg : Config)

end

/-! ### The table -/

/-- A row of a batch, with the values that were set. -/
structure BatchRow where
  ts : Timespec
  values : List (Option Cell)

/-- What was collected, and what was pushed. -/
structure BatchTable where
  collected : List BatchRow
  table : List BatchRow

/-- One call. -/
def BatchTable.call (b : BatchTable) : BatchCall → BatchTable
  | .startRow ts => { b with collected := b.collected ++ [⟨ts, List.replicate 5 none⟩] }
  | .rowSet index value =>
    { b with collected := b.collected.modifyLast fun row =>
        { row with values := row.values.set index (some value) } }
  | .push => ⟨[], b.table ++ b.collected⟩

/-- All calls. -/
def BatchTable.calls (b : BatchTable) (made : List CheckedCall) : BatchTable :=
  made.foldl (fun b call => b.call call.1) b

/-- A complete row. -/
def Row.stored (row : Row ℚ) : BatchRow :=
  ⟨row.ts, [some (.int64 row.security), some (.double row.price), some (.int64 row.volume),
    some (.int64 row.agent), some (.int64 row.counterparty)]⟩

/-- All calls of a day. -/
def DayLog.calls (log : DayLog ℚ) : List CheckedCall := log.rows.flatMap Row.calls ++ pushToDb

section

variable {G : Type} {e : Engine G} {build : FmtBuild} {cfg : Config}
  {accepts : List CheckedCall → CheckedCall → Bool}

end

end TradingDesk.Generator
