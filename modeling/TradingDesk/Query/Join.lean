import TradingDesk.Query.Orders

/-!
# TradingDesk.Query.Join

**Columns that were read one by one.** The join takes the points at one position for one
row. Of the seven counts it compares two, and of the timestamps it reads one, so it is
up to the columns whether there is a row. `join_faithful_iff` says for which columns all is
well: those whose points are at the timestamps of the type column, one by one. The
result is then these rows in the order of their timestamps.
-/

namespace TradingDesk.Query

open TradingDesk.Core
open TradingDesk.Utils (Timespec)

variable {D F : Type}

/-! ### Columns that hold rows -/

/-- The timestamps of the other six columns. -/
def OrderColumns.otherTimestamps (columns : OrderColumns F) : List (List Timespec) :=
  [columns.orderReference.map Prod.fst, columns.orderOriginalReference.map Prod.fst,
    columns.orderNewReference.map Prod.fst, columns.orderIsBuy.map Prod.fst,
    columns.orderShares.map Prod.fst, columns.orderPrice.map Prod.fst]

/-- Each of the other columns starts with points at the timestamps of the type column. -/
def OrderColumns.Aligned (columns : OrderColumns F) : Prop :=
  ∀ timestamps ∈ columns.otherTimestamps, columns.orderType.map Prod.fst <+: timestamps

/-- In a column that starts with these timestamps, a point has the one at its position. -/
theorem exists_point_of_prefix {α β : Type} {types : List (Timespec × α)}
    {points : List (Timespec × β)} (h : types.map Prod.fst <+: points.map Prod.fst) {i : Nat}
    {timestamp : Timespec} {type : α} (hi : types[i]? = some (timestamp, type)) :
    ∃ value, points[i]? = some (timestamp, value) := by
  have hfst : (types.map Prod.fst)[i]? = some timestamp := by
    rw [List.getElem?_map, hi]
    rfl
  obtain ⟨hlt, -⟩ := List.getElem?_eq_some_iff.mp hfst
  obtain ⟨rest, hrest⟩ := h
  rw [← List.getElem?_append_left hlt, hrest, List.getElem?_map] at hfst
  obtain ⟨⟨_, value⟩, hpoint, rfl⟩ := Option.map_eq_some_iff.mp hfst
  exact ⟨value, hpoint⟩

/-- A column with the points of rows starts with their timestamps. -/
theorem timestamps_isPrefix {α : Type} {points : List (Timespec × α)} {rows : List (OrderRow F)}
    (value : OrderRow F → α)
    (h : ∀ (i : Nat) row, rows[i]? = some row → points[i]? = some (row.timestamp, value row)) :
    rows.map OrderRow.timestamp <+: points.map Prod.fst := by
  rw [List.prefix_iff_getElem?]
  intro i hi
  rw [List.length_map] at hi
  rw [List.getElem?_map, h i rows[i] (List.getElem?_eq_getElem hi), List.getElem_map]
  rfl

/-- **Columns hold rows exactly if they are aligned.** -/
theorem OrderColumns.aligned_iff {columns : OrderColumns F} :
    columns.Aligned ↔ ∃ rows, columns.HaveRows rows := by
  constructor
  · intro h
    simp only [Aligned, otherTimestamps, List.forall_mem_cons] at h
    obtain ⟨href, horig, hnew, hbuy, hshares, hprice, -⟩ := h
    have hrow : ∀ i : Fin columns.orderType.length, ∃ row, columns.PointsAre i row := by
      intro i
      have htype : columns.orderType[(i : Nat)]?
          = some (columns.orderType[i].1, columns.orderType[i].2) :=
        List.getElem?_eq_getElem i.isLt
      obtain ⟨ref, href⟩ := exists_point_of_prefix href htype
      obtain ⟨orig, horig⟩ := exists_point_of_prefix horig htype
      obtain ⟨new, hnew⟩ := exists_point_of_prefix hnew htype
      obtain ⟨buy, hbuy⟩ := exists_point_of_prefix hbuy htype
      obtain ⟨shares, hshares⟩ := exists_point_of_prefix hshares htype
      obtain ⟨price, hprice⟩ := exists_point_of_prefix hprice htype
      exact ⟨⟨columns.orderType[i].1, columns.orderType[i].2, ref, orig, new, buy, shares, price⟩,
        htype, href, horig, hnew, hbuy, hshares, hprice⟩
    obtain ⟨row, hrow⟩ := Classical.skolem.mp hrow
    refine ⟨List.ofFn row, (List.length_ofFn).symm, fun i r hr => ?_⟩
    obtain ⟨hi, rfl⟩ := List.getElem?_eq_some_iff.mp hr
    rw [List.length_ofFn] at hi
    rw [List.getElem_ofFn]
    exact hrow ⟨i, hi⟩
  · rintro ⟨rows, hcount, hpoints⟩
    have htypes : columns.orderType.map Prod.fst = rows.map OrderRow.timestamp := by
      have hstart := timestamps_isPrefix OrderRow.type fun i row hr => (hpoints i row hr).orderType
      exact (hstart.eq_of_length (by rw [List.length_map, List.length_map, hcount])).symm
    simp only [Aligned, otherTimestamps, List.forall_mem_cons, htypes]
    exact ⟨timestamps_isPrefix _ fun i row hr => (hpoints i row hr).orderReference,
      timestamps_isPrefix _ fun i row hr => (hpoints i row hr).orderOriginalReference,
      timestamps_isPrefix _ fun i row hr => (hpoints i row hr).orderNewReference,
      timestamps_isPrefix _ fun i row hr => (hpoints i row hr).orderIsBuy,
      timestamps_isPrefix _ fun i row hr => (hpoints i row hr).orderShares,
      timestamps_isPrefix _ fun i row hr => (hpoints i row hr).orderPrice,
      fun _ h => absurd h List.not_mem_nil⟩

/-! ### How the loop can fail -/

/-- The one way for this to fail is undefined behaviour. -/
def OnlyUndefined {α : Type} (x : Except Failure α) : Prop :=
  ∀ failure, x = .error failure → failure = .undefined

theorem onlyUndefined_ok {α : Type} (a : α) : OnlyUndefined (.ok a) := fun _ h => nomatch h

theorem OnlyUndefined.bind {α β : Type} {x : Except Failure α} {f : α → Except Failure β}
    (hx : OnlyUndefined x) (hf : ∀ a, OnlyUndefined (f a)) : OnlyUndefined (x >>= f) := by
  cases x with
  | error failure =>
      intro failure' h
      rw [error_bind, Except.error.injEq] at h
      exact hx failure' (congrArg Except.error h)
  | ok a => exact hf a

theorem OnlyUndefined.foldlM {α β : Type} {f : β → α → Except Failure β}
    (hf : ∀ b a, OnlyUndefined (f b a)) (b : β) (as : List α) : OnlyUndefined (as.foldlM f b) := by
  induction as generalizing b with
  | nil => exact onlyUndefined_ok b
  | cons a as ih =>
      rw [List.foldlM_cons]
      exact (hf b a).bind ih

/-- A point that is not there. -/
theorem onlyUndefined_pointAt {α : Type} (points : List (Timespec × α)) (i : Nat) :
    OnlyUndefined (pointAt points i) := by
  rw [pointAt]
  split
  · intro failure h
    exact (Except.error.inj h).symm
  · exact onlyUndefined_ok _

theorem OrderColumns.onlyUndefined_recordAt (columns : OrderColumns F) (int64Undefined : Int64)
    (i : Nat) : OnlyUndefined (columns.recordAt int64Undefined i) := by
  refine (onlyUndefined_pointAt _ i).bind fun _ => ?_
  refine (onlyUndefined_pointAt _ i).bind fun _ => ?_
  refine (onlyUndefined_pointAt _ i).bind fun _ => ?_
  refine (onlyUndefined_pointAt _ i).bind fun _ => ?_
  refine (onlyUndefined_pointAt _ i).bind fun _ => ?_
  refine (onlyUndefined_pointAt _ i).bind fun _ => ?_
  exact (onlyUndefined_pointAt _ i).bind fun _ => onlyUndefined_ok _

/-! ### The join -/

section

variable [Qdb D F] {db : D} {table : List UInt8} {first last : Timespec} {columns : OrderColumns F}

/-- The join throws its error about the counts, or there are rows that the columns hold, and
the records are theirs: sorted by timestamp, in the order of the rows where timestamps
are equal, none lost and none duplicated. -/
def JoinIsFaithful (db : D) (table : List UInt8) (first last : Timespec)
    (columns : OrderColumns F) : Prop :=
  getOrdersRecords db table first last = .error (.exception "incoherence column count") ∨
    ∃ rows orders, columns.HaveRows rows ∧ getOrdersRecords db table first last = .ok orders ∧
      IsStableSort Prod.fst (rows.map (OrderRow.toEntry (Qdb.int64Undefined D))) orders ∧
      orders.Perm (rows.map (OrderRow.toEntry (Qdb.int64Undefined D)))

/-- **When the join is safe and faithful.** For any seven columns that the database returns:
exactly if the counts of types and references differ, which it checks, or if the other
columns are aligned with the type column. -/
theorem join_faithful_iff (h : ReturnsColumns db table first last columns) :
    JoinIsFaithful db table first last columns ↔
      columns.orderType.length ≠ columns.orderReference.length ∨ columns.Aligned := by
  constructor
  · rintro (hthrows | ⟨rows, -, hrows, -, -, -⟩)
    · left
      intro hcount
      -- past the check, the loop does not throw
      rw [h.getOrdersRecords_eq, if_neg (not_not.mpr hcount)] at hthrows
      have honly := OnlyUndefined.foldlM
        (fun result i => (columns.onlyUndefined_recordAt (Qdb.int64Undefined D) i).bind fun entry =>
          onlyUndefined_ok (emplaceHint result entry.1 entry.2)) [] _ _ hthrows
      cases honly
    · exact Or.inr (OrderColumns.aligned_iff.mpr ⟨rows, hrows⟩)
  · intro hcolumns
    by_cases hcount : columns.orderType.length = columns.orderReference.length
    · have haligned := hcolumns.resolve_left (not_not.mpr hcount)
      obtain ⟨rows, hrows⟩ := OrderColumns.aligned_iff.mp haligned
      have hsort : IsStableSort Prod.fst (rows.map (OrderRow.toEntry (Qdb.int64Undefined D))) _ :=
        isStableSort_foldl_insertBehind List.Pairwise.nil _
      exact Or.inr ⟨rows, _, hrows, h.getOrdersRecords_of_haveRows hrows hcount, hsort, hsort.perm⟩
    · left
      rw [h.getOrdersRecords_eq, if_pos hcount]

end

/-! ### A database of seven columns -/

/-- The integer columns, by name. -/
def OrderColumns.int64Points (columns : OrderColumns F) :
    List (List UInt8 × List (Timespec × Int64)) :=
  [(ascii "type", columns.orderType), (ascii "reference", columns.orderReference),
    (ascii "original_reference", columns.orderOriginalReference),
    (ascii "new_reference", columns.orderNewReference), (ascii "is_buy", columns.orderIsBuy),
    (ascii "shares", columns.orderShares)]

/-- A database that answers every range of every table with these columns, and has no blobs. -/
instance : Qdb (OrderColumns F) F where
  prefixGet _ _ _ := .error .aliasNotFound
  blobGet _ _ := .error .aliasNotFound
  blobUpdate _ _ _ := .error .other
  int64GetRanges columns _ column _ _ :=
    match columns.int64Points.lookup column with
    | none => .error .other
    | some points => .ok points
  doubleGetRanges columns _ column _ _ :=
    if column = ascii "price" then .ok columns.orderPrice else .error .other
  int64Undefined := Int64.minValue

theorem OrderColumns.returnsColumns (columns : OrderColumns F) (table : List UInt8)
    (first last : Timespec) : ReturnsColumns columns table first last columns :=
  ⟨rfl, rfl, rfl, rfl, rfl, rfl, rfl⟩

/-- Two rows, the later one first. -/
def unsortedRows : List (OrderRow Rat) :=
  [⟨⟨2, 0⟩, 65, 8, Int64.minValue, Int64.minValue, 1, 100, 5⟩,
    ⟨⟨1, 0⟩, 65, 7, Int64.minValue, Int64.minValue, 0, 300, 6⟩]

theorem unsortedRows_joined :
    JoinIsFaithful (OrderColumns.ofRows unsortedRows) (ascii "AAPL_orders") ⟨0, 0⟩ ⟨3, 0⟩
      (OrderColumns.ofRows unsortedRows) :=
  (join_faithful_iff (OrderColumns.returnsColumns _ _ _ _)).mpr
    (Or.inr (OrderColumns.aligned_iff.mpr ⟨_, OrderColumns.haveRows_ofRows _⟩))

/-- One order of which only the type and the reference were written. -/
def incompleteColumns : OrderColumns Rat where
  orderType := [(⟨1, 0⟩, 65)]
  orderReference := [(⟨1, 0⟩, 7)]
  orderOriginalReference := []
  orderNewReference := []
  orderIsBuy := []
  orderShares := []
  orderPrice := []

/-- The counts that are compared are equal, and the first index into the third column is
already out of its bounds. -/
theorem incompleteColumns_out_of_bounds :
    getOrdersRecords incompleteColumns (ascii "AAPL_orders") ⟨0, 0⟩ ⟨3, 0⟩ = .error .undefined ∧
      ¬ JoinIsFaithful incompleteColumns (ascii "AAPL_orders") ⟨0, 0⟩ ⟨3, 0⟩ incompleteColumns := by
  have hundefined :
      getOrdersRecords incompleteColumns (ascii "AAPL_orders") ⟨0, 0⟩ ⟨3, 0⟩
        = .error .undefined := rfl
  refine ⟨hundefined, ?_⟩
  rintro (hthrows | ⟨rows, orders, -, hok, -⟩)
  · rw [hundefined] at hthrows
    cases hthrows
  · rw [hundefined] at hok
    cases hok

end TradingDesk.Query
