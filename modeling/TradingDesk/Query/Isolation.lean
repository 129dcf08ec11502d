import TradingDesk.Core.Traces
import TradingDesk.Query.PointInTime

/-!
# TradingDesk.Query.Isolation

**The stocks do not see each other.** All queries use one database, and those with
point-in-time enabled write to it. A query looks at the rows of its own stock and at the
blobs under the beginning of its own keys, and writes one of these at most. So with stocks
of which none has keys that begin as another's, each gets the answers that it would get
alone, however the queries are interleaved.

The marker between the stock and the instant of a key has underscores, so stocks without
them are separate.
-/

namespace TradingDesk.Query

open TradingDesk.Core
open TradingDesk.Exec (Order OrderRecord ExecutionEngine)
open TradingDesk.Exec.ExecutionEngine (runOrder Fits)
open TradingDesk.Utils

/-! ### What a stock sees -/

/-- The beginning of the keys of a stock. -/
def snapshotsOf (stock : List UInt8) : List UInt8 := stock ++ ascii "_orders_snap_"

theorem snapshotsOf_isPrefix_makeSnapshotKey (stock : List UInt8) (w : Timespec) :
    snapshotsOf stock <+: makeSnapshotKey stock w := List.prefix_append _ _

theorem snapshotsOf_isPrefix_snapshotsOfDay (stock : List UInt8) (ymd : Ymd) :
    snapshotsOf stock <+: snapshotsOfDay stock ymd := by
  simp only [snapshotsOf, snapshotsOfDay, List.append_assoc, List.prefix_append_right_inj,
    List.prefix_append]

/-- The part of a database that belongs to a stock. -/
structure StockView (F : Type) where
  rows : List (OrderRow F)
  blobs : List UInt8 → Option (List UInt8)

section

variable {D F : Type} [LawfulQdb D F]

/-- The rows of the stock's table, and the blobs under its keys. -/
def stockView (db : D) (stock : List UInt8) : StockView F where
  rows := LawfulQdb.rows db (ordersTable stock)
  blobs key := if (snapshotsOf stock).isPrefixOf key then (LawfulQdb.blobs db).lookup key else none

variable {db db' : D} {stock : List UInt8}

theorem stockView_blobs {key : List UInt8} (h : snapshotsOf stock <+: key) :
    (stockView db stock).blobs key = (LawfulQdb.blobs db).lookup key :=
  if_pos (List.isPrefixOf_iff_prefix.mpr h)

theorem stockView_blobs_of_not {key : List UInt8} (h : ¬ snapshotsOf stock <+: key) :
    (stockView db stock).blobs key = none :=
  if_neg fun hprefix => h (List.isPrefixOf_iff_prefix.mp hprefix)

theorem lookup_of_stockView (h : stockView db stock = stockView db' stock) {key : List UInt8}
    (hkey : snapshotsOf stock <+: key) :
    (LawfulQdb.blobs db).lookup key = (LawfulQdb.blobs db').lookup key := by
  rw [← stockView_blobs hkey, ← stockView_blobs hkey, h]

theorem rows_of_stockView (h : stockView db stock = stockView db' stock) :
    LawfulQdb.rows db (ordersTable stock) = LawfulQdb.rows db' (ordersTable stock) :=
  congrArg StockView.rows h

theorem stockView_ext
    (hrows : LawfulQdb.rows db (ordersTable stock) = LawfulQdb.rows db' (ordersTable stock))
    (hblobs : ∀ key, snapshotsOf stock <+: key →
      (LawfulQdb.blobs db).lookup key = (LawfulQdb.blobs db').lookup key) :
    stockView db stock = stockView db' stock := by
  have hview : (stockView db stock).blobs = (stockView db' stock).blobs := by
    funext key
    by_cases hkey : snapshotsOf stock <+: key
    · rw [stockView_blobs hkey, stockView_blobs hkey, hblobs key hkey]
    · rw [stockView_blobs_of_not hkey, stockView_blobs_of_not hkey]
  exact StockView.mk.injEq .. ▸ ⟨hrows, hview⟩

/-- A blob under a key of another beginning is not seen. -/
theorem stockView_of_stored {key content : List UInt8} (h : Stored db db' key content)
    (hkey : ¬ snapshotsOf stock <+: key) : stockView db' stock = stockView db stock := by
  obtain ⟨hblobs, hrows⟩ := h
  refine stockView_ext (by rw [hrows]) fun k hk => ?_
  have hne : k ≠ key := fun heq => hkey (heq ▸ hk)
  rw [hblobs, if_neg hne]

/-- The same blob written to databases that a stock cannot tell apart. -/
theorem stockView_congr_of_stored {db₁ db₁' : D} {key content : List UInt8}
    (h : stockView db stock = stockView db' stock) (hstored : Stored db db₁ key content)
    (hstored' : Stored db' db₁' key content) : stockView db₁ stock = stockView db₁' stock := by
  obtain ⟨hblobs, hrows⟩ := hstored
  obtain ⟨hblobs', hrows'⟩ := hstored'
  refine stockView_ext (by rw [hrows, hrows', rows_of_stockView h]) fun k hk => ?_
  rw [hblobs, hblobs', lookup_of_stockView h hk]

/-- The stored keys of a day are among what the stock sees. -/
theorem snapshotKeys_congr (h : stockView db stock = stockView db' stock) (ymd : Ymd) :
    snapshotKeys db stock ymd = snapshotKeys db' stock ymd := by
  have hmem : ∀ key, key ∈ snapshotKeys db stock ymd ↔ key ∈ snapshotKeys db' stock ymd := by
    intro key
    rw [mem_snapshotKeys, mem_snapshotKeys]
    refine and_congr_left fun hday => ?_
    rw [lookup_of_stockView h ((snapshotsOf_isPrefix_snapshotsOfDay stock ymd).trans hday)]
  have hne : ∀ {a b : List UInt8}, a < b → a ≠ b := fun hlt heq => List.lt_irrefl _ (heq ▸ hlt)
  have hnodup : ∀ db : D, (snapshotKeys db stock ymd).Nodup :=
    fun db => (snapshotKeys_sorted db stock ymd).imp hne
  exact ((List.perm_ext_iff_of_nodup (hnodup db) (hnodup db')).mpr hmem).eq_of_pairwise
    (fun a b _ _ hab hba => absurd (List.lt_trans hab hba) (List.lt_irrefl a))
    (snapshotKeys_sorted db stock ymd) (snapshotKeys_sorted db' stock ymd)

/-- What is chosen depends on the keys of the day only, also where the read fails for there being
none. -/
theorem chooseKey_prefixGet (db : D) (stock bestSnapKey : List UInt8) (ymd : Ymd) :
    chooseKey bestSnapKey (Qdb.prefixGet db (snapshotsOfDay stock ymd) 100)
      = chooseKey bestSnapKey (.ok ((snapshotKeys db stock ymd).take 100)) := by
  rcases LawfulQdb.prefixGet_eq db (snapshotsOfDay stock ymd) 100 with hget | ⟨hnil, hget⟩
  · rw [hget]
    rfl
  · have hkeys : snapshotKeys db stock ymd = [] := hnil
    rw [hget, hkeys]
    rfl

theorem selectSnapshot_congr (h : stockView db stock = stockView db' stock) (w : Timespec) :
    selectSnapshot db stock w = selectSnapshot db' stock w := by
  unfold selectSnapshot
  cases requestedDay w with
  | error failure => rfl
  | ok ymd => rw [ok_bind, ok_bind, chooseKey_prefixGet, chooseKey_prefixGet, snapshotKeys_congr h]

theorem mem_of_findMatch {best key : List UInt8} {keys : List (List UInt8)}
    {found : Option (List UInt8)} (h : findMatch best keys found = some key) :
    key ∈ keys ∨ found = some key := by
  induction keys generalizing found with
  | nil => exact Or.inr h
  | cons k keys ih =>
      rw [findMatch] at h
      split at h
      · exact Or.inr h
      · rcases ih h with hmem | hk
        · exact Or.inl (List.mem_cons_of_mem k hmem)
        · exact Or.inl (Option.some.inj hk ▸ List.mem_cons_self)

/-- What is selected is one of the stored keys of the day. -/
theorem mem_of_selectSnapshot {w : Timespec} {key : List UInt8} {idx : Nat}
    (h : selectSnapshot db stock w = .ok (some (key, idx))) :
    ∃ ymd, requestedDay w = .ok ymd ∧ key ∈ snapshotKeys db stock ymd := by
  unfold selectSnapshot at h
  cases hday : requestedDay w with
  | error failure =>
      rw [hday] at h
      cases h
  | ok ymd =>
      rw [hday, ok_bind, chooseKey_prefixGet] at h
      refine ⟨ymd, rfl, ?_⟩
      generalize hkeys : (snapshotKeys db stock ymd).take 100 = keys at h
      have hsub : ∀ k ∈ keys, k ∈ snapshotKeys db stock ymd := fun k hk =>
        List.mem_of_mem_take (hkeys ▸ hk)
      cases keys with
      | nil => cases h
      | cons k keys =>
          rw [chooseKey] at h
          · cases hfind : findMatch (makeSnapshotKey stock w) (k :: keys) none with
            | none =>
                rw [hfind] at h
                cases h
            | some found =>
                rw [hfind] at h
                obtain ⟨_, -, heq⟩ := Option.map_eq_some_iff.mp (Except.ok.inj h)
                obtain rfl := (Prod.mk.inj heq).1
                exact hsub found
                  ((mem_of_findMatch hfind).resolve_right (Option.some_ne_none _).symm)
          · exact List.cons_ne_nil k keys

/-- **A restore depends on what the stock sees only.** -/
theorem restoreSnapshot_congr {T : Type} [UnorderedMap T UInt64 Order]
    (h : stockView db stock = stockView db' stock) (clock : SystemClock) (host : ByteOrder)
    (engine : ExecutionEngine T) (w : Timespec) :
    restoreSnapshot clock host db engine stock w
      = restoreSnapshot clock host db' engine stock w := by
  rcases hselect : selectSnapshot db stock w with failure | _ | ⟨key, idx⟩
  · rw [restoreSnapshot, restoreSnapshot, ← selectSnapshot_congr h, hselect]
    rfl
  · rw [restoreSnapshot_of_none hselect,
      restoreSnapshot_of_none (selectSnapshot_congr h w ▸ hselect)]
  · rw [restoreSnapshot_of_some hselect,
      restoreSnapshot_of_some (selectSnapshot_congr h w ▸ hselect)]
    -- the blob that is read is one of the stock's
    obtain ⟨ymd, -, hkey⟩ := mem_of_selectSnapshot hselect
    obtain ⟨⟨content, hlookup⟩, hday⟩ := mem_snapshotKeys.mp hkey
    have hlookup' : (LawfulQdb.blobs db').lookup key = some content := by
      rw [← lookup_of_stockView h ((snapshotsOf_isPrefix_snapshotsOfDay stock ymd).trans hday),
        hlookup]
    rw [loadSnapshot, loadSnapshot, LawfulQdb.blobGet_eq hlookup, LawfulQdb.blobGet_eq hlookup']

theorem getOrdersRecords_congr (h : stockView db stock = stockView db' stock)
    (first last : Timespec) :
    getOrdersRecords db (ordersTable stock) first last
      = getOrdersRecords db' (ordersTable stock) first last := by
  rw [getOrdersRecords_eq, getOrdersRecords_eq, rows_of_stockView h]

/-! ### One query -/

variable [DoubleArith F]

section

variable {clock : SystemClock} {host : ByteOrder} {T : Type} [UnorderedMap T UInt64 Order]
variable {cfg : Config}
variable {first last snap : Timespec} {engine : ExecutionEngine T}

/-- What a query starts from: a snapshot, or nothing. -/
def startOf (clock : SystemClock) (host : ByteOrder)
    (T : Type) [UnorderedMap T UInt64 Order] (db : D) (cfg : Config)
    (last : Timespec) : Except Failure (Timespec × ExecutionEngine T) :=
  if cfg.pointInTime then restoreSnapshot clock host db ExecutionEngine.empty cfg.stock last
  else .ok (Timespec.zero, ExecutionEngine.empty)

/-- The records that a query runs. -/
def recordsFrom (snap : Timespec) (orders : OrderRecords F) : List (OrderRecord F) :=
  (if snap ≠ Timespec.zero then lowerBound orders snap else orders).map Prod.snd

/-- The answer of a query that starts from an engine. -/
def answerFrom (engine : ExecutionEngine T) (snap : Timespec) (orders : OrderRecords F) : Answer :=
  ⟨(run runOrder engine (recordsFrom snap orders)).buyBook,
    (run runOrder engine (recordsFrom snap orders)).sellBook, orders.length,
    (outputs runOrder engine (recordsFrom snap orders)).count false⟩

theorem runQuery_of_start_error {failure : Failure}
    (hrange : getTimeRange clock cfg.when = .ok (first, last))
    (hstart : startOf clock host T db cfg last = .error failure) :
    runQuery clock host T db cfg = .error failure := by
  rw [runQuery, hrange, ok_bind]
  unfold startOf at hstart
  cases hpit : cfg.pointInTime with
  | false =>
      rw [hpit] at hstart
      cases hstart
  | true =>
      rw [hpit, if_pos rfl] at hstart
      simp only [if_true, hstart, error_bind]

/-- **One query**, by where it starts and by what it reads. It may be left by the exception of a
table. -/
theorem runQuery_eq (hrange : getTimeRange clock cfg.when = .ok (first, last))
    (hstart : startOf clock host T db cfg last = .ok (snap, engine)) {orders : OrderRecords F}
    (horders : getOrdersRecords db (ordersTable cfg.stock)
      (if snap ≠ Timespec.zero then snap else first) last = .ok orders)
    (hfits : Along runOrder Fits engine (recordsFrom snap orders)) :
    runQuery clock host T db cfg
      = if cfg.pointInTime ∧ orders ≠ [] ∧ snap < getSnapshotTimestamp last then
          (storeSnapshot host db (run runOrder engine (recordsFrom snap orders)) cfg.stock last).map
            fun db' => (answerFrom engine snap orders, db')
        else .ok (answerFrom engine snap orders, db) := by
  rw [runQuery, hrange, ok_bind]
  unfold startOf at hstart
  cases hpit : cfg.pointInTime with
  | false =>
      rw [hpit] at hstart
      cases hstart
      rw [recordsFrom] at hfits
      simp only [Bool.false_eq_true, if_false, false_and, ok_bind, horders,
        runRecords_of_along hfits]
      rfl
  | true =>
      rw [hpit, if_pos rfl] at hstart
      rw [recordsFrom] at hfits
      simp only [if_true, hstart, ok_bind, horders, true_and, runRecords_of_along hfits]
      by_cases hstore : orders ≠ [] ∧ snap < getSnapshotTimestamp last
      · rw [if_pos hstore, if_pos hstore]
        rfl
      · rw [if_neg hstore, if_neg hstore]
        rfl

theorem runQuery_of_overflow (hrange : getTimeRange clock cfg.when = .ok (first, last))
    (hstart : startOf clock host T db cfg last = .ok (snap, engine)) {orders : OrderRecords F}
    (horders : getOrdersRecords db (ordersTable cfg.stock)
      (if snap ≠ Timespec.zero then snap else first) last = .ok orders)
    (hover : ¬ Along runOrder Fits engine (recordsFrom snap orders)) :
    runQuery clock host T db cfg = .error .overflow := by
  rw [runQuery, hrange, ok_bind]
  rw [recordsFrom] at hover
  unfold startOf at hstart
  cases hpit : cfg.pointInTime with
  | false =>
      rw [hpit] at hstart
      cases hstart
      simp only [Bool.false_eq_true, if_false, ok_bind, horders, runRecords_of_not_along hover,
        error_bind]
  | true =>
      rw [hpit, if_pos rfl] at hstart
      simp only [if_true, hstart, ok_bind, horders, runRecords_of_not_along hover, error_bind]

end

/-- A query of some stock, as a step of the database. -/
def queryStep (clock : SystemClock) (host : ByteOrder)
    (T : Type) [UnorderedMap T UInt64 Order] (db : D) (cfg : Config) :
    Except Failure Answer × D :=
  match runQuery clock host T db cfg with
  | .error failure => (.error failure, db)
  | .ok (answer, db) => (.ok answer, db)

section

variable {clock : SystemClock} {host : ByteOrder} {T : Type} [UnorderedMap T UInt64 Order]
variable {cfg : Config}
variable {first last snap : Timespec} {engine : ExecutionEngine T} {failure : Failure}

theorem queryStep_of_range_error (hrange : getTimeRange clock cfg.when = .error failure) :
    queryStep clock host T db cfg = (.error failure, db) := by
  rw [queryStep, runQuery, hrange, error_bind]

theorem queryStep_of_start_error (hrange : getTimeRange clock cfg.when = .ok (first, last))
    (hstart : startOf clock host T db cfg last = .error failure) :
    queryStep clock host T db cfg = (.error failure, db) := by
  rw [queryStep, runQuery_of_start_error hrange hstart]

theorem queryStep_of_overflow (hrange : getTimeRange clock cfg.when = .ok (first, last))
    (hstart : startOf clock host T db cfg last = .ok (snap, engine)) {orders : OrderRecords F}
    (horders : getOrdersRecords db (ordersTable cfg.stock)
      (if snap ≠ Timespec.zero then snap else first) last = .ok orders)
    (hover : ¬ Along runOrder Fits engine (recordsFrom snap orders)) :
    queryStep clock host T db cfg = (.error .overflow, db) := by
  rw [queryStep, runQuery_of_overflow hrange hstart horders hover]

/-- **A query that has something to start from** answers, if no table throws, and stores one
snapshot at most. -/
theorem queryStep_of_start (hrange : getTimeRange clock cfg.when = .ok (first, last))
    (hstart : startOf clock host T db cfg last = .ok (snap, engine)) {orders : OrderRecords F}
    (horders : getOrdersRecords db (ordersTable cfg.stock)
      (if snap ≠ Timespec.zero then snap else first) last = .ok orders)
    (hfits : Along runOrder Fits engine (recordsFrom snap orders)) :
    (queryStep clock host T db cfg).1 = .ok (answerFrom engine snap orders) ∧
      if cfg.pointInTime ∧ orders ≠ [] ∧ snap < getSnapshotTimestamp last then
        Stored db (queryStep clock host T db cfg).2
          (makeSnapshotKey cfg.stock (getSnapshotTimestamp last))
          ((run runOrder engine (recordsFrom snap orders)).serializeState host)
      else (queryStep clock host T db cfg).2 = db := by
  rw [queryStep, runQuery_eq hrange hstart horders hfits]
  by_cases hstore : cfg.pointInTime ∧ orders ≠ [] ∧ snap < getSnapshotTimestamp last
  · obtain ⟨db₁, hupdate, hstored⟩ := LawfulQdb.blobUpdate_eq db
      (makeSnapshotKey cfg.stock (getSnapshotTimestamp last))
      ((run runOrder engine (recordsFrom snap orders)).serializeState host)
    rw [if_pos hstore, if_pos hstore, storeSnapshot, hupdate]
    exact ⟨rfl, hstored⟩
  · rw [if_neg hstore, if_neg hstore]
    exact ⟨rfl, rfl⟩

/-- **One query on databases that its stock cannot tell apart.** The answers are the same, and
both databases stay as they are or get the same blob, under a key of the stock. -/
theorem queryStep_congr (h : stockView db cfg.stock = stockView db' cfg.stock) :
    (queryStep clock host T db cfg).1 = (queryStep clock host T db' cfg).1 ∧
      ((queryStep clock host T db cfg).2 = db ∧ (queryStep clock host T db' cfg).2 = db' ∨
        ∃ key content, snapshotsOf cfg.stock <+: key ∧
          Stored db (queryStep clock host T db cfg).2 key content ∧
          Stored db' (queryStep clock host T db' cfg).2 key content) := by
  rcases hrange : getTimeRange clock cfg.when with failure | ⟨first, last⟩
  · rw [queryStep_of_range_error hrange, queryStep_of_range_error hrange]
    exact ⟨rfl, Or.inl ⟨rfl, rfl⟩⟩
  have hsame : startOf clock host T db cfg last = startOf clock host T db' cfg last := by
    rw [startOf, startOf, restoreSnapshot_congr h]
  rcases hstart : startOf clock host T db' cfg last with failure | ⟨snap, engine⟩
  · rw [queryStep_of_start_error hrange (hsame.trans hstart),
      queryStep_of_start_error hrange hstart]
    exact ⟨rfl, Or.inl ⟨rfl, rfl⟩⟩
  obtain ⟨orders, horders, -⟩ := getOrdersRecords_ok db' cfg.stock
    (if snap ≠ Timespec.zero then snap else first) last
  have horders' := (getOrdersRecords_congr h _ _).trans horders
  by_cases hfits : Along runOrder Fits engine (recordsFrom snap orders)
  case neg =>
    rw [queryStep_of_overflow hrange (hsame.trans hstart) horders' hfits,
      queryStep_of_overflow hrange hstart horders hfits]
    exact ⟨rfl, Or.inl ⟨rfl, rfl⟩⟩
  obtain ⟨hanswer, hdb⟩ := queryStep_of_start hrange (hsame.trans hstart) horders' hfits
  obtain ⟨hanswer', hdb'⟩ := queryStep_of_start hrange hstart horders hfits
  refine ⟨hanswer.trans hanswer'.symm, ?_⟩
  by_cases hstore : cfg.pointInTime ∧ orders ≠ [] ∧ snap < getSnapshotTimestamp last
  · rw [if_pos hstore] at hdb hdb'
    exact Or.inr ⟨_, _, snapshotsOf_isPrefix_makeSnapshotKey _ _, hdb, hdb'⟩
  · rw [if_neg hstore] at hdb hdb'
    exact Or.inl ⟨hdb, hdb'⟩

end

/-! ### Interleaved queries -/

/-- No stock of the set has keys that begin as the keys of another one. -/
def Separate (stocks : Set (List UInt8)) : Prop :=
  ∀ a ∈ stocks, ∀ b ∈ stocks, snapshotsOf a <+: snapshotsOf b → a = b

variable {clock : SystemClock} {host : ByteOrder} {T : Type} [UnorderedMap T UInt64 Order]
variable {stocks : Set (List UInt8)}

/-- **A query reads and writes its own stock only.** -/
theorem queryStep_isLocal (h : Separate stocks) :
    IsLocal (fun (db : D) (stock : stocks) => stockView db stock.1)
      (fun (db : D) (query : { cfg : Config // cfg.stock ∈ stocks }) =>
        queryStep clock host T db query.1)
      fun query => [⟨query.1.stock, query.2⟩] := by
  refine ⟨?_, ?_, ?_⟩
  · rintro db ⟨cfg, hcfg⟩ ⟨stock, hstock⟩ hother
    have hne : stock ≠ cfg.stock := fun heq => hother (List.mem_singleton.mpr (Subtype.ext heq))
    obtain ⟨-, ⟨hsame, -⟩ | ⟨key, content, hkey, hstored, -⟩⟩ :=
      @queryStep_congr D F _ db db _ clock host T _ cfg rfl
    · exact congrArg (stockView · stock) hsame
    · refine stockView_of_stored hstored fun hprefix => hne ?_
      -- both stocks' keys begin as this one does
      rcases List.prefix_or_prefix_of_prefix hprefix hkey with hab | hba
      · exact h _ hstock _ hcfg hab
      · exact (h _ hcfg _ hstock hba).symm
  · rintro db db' ⟨cfg, hcfg⟩ hview
    exact (queryStep_congr (hview _ List.mem_cons_self)).1
  · rintro db db' ⟨cfg, hcfg⟩ hview stock hstock
    obtain rfl := List.mem_singleton.mp hstock
    have hsame : stockView db cfg.stock = stockView db' cfg.stock := hview _ List.mem_cons_self
    obtain ⟨-, ⟨hdb, hdb'⟩ | ⟨key, content, -, hstored, hstored'⟩⟩ :=
      @queryStep_congr D F _ db db' _ clock host T _ cfg hsame
    · dsimp only
      rw [hdb, hdb', hsame]
    · exact stockView_congr_of_stored hsame hstored hstored'

/-- Stocks without underscores are separate: the marker begins at the first one. -/
theorem separate_of_no_underscore : Separate { stock | '_'.toUInt8 ∉ stock } := by
  intro a ha b hb h
  change a ++ '_'.toUInt8 :: ascii "orders_snap_" <+: b ++ '_'.toUInt8 :: ascii "orders_snap_" at h
  generalize ascii "orders_snap_" = marker at h
  induction a generalizing b with
  | nil =>
      cases b with
      | nil => rfl
      | cons c b =>
          exact absurd (List.cons_prefix_cons.mp h).1 fun heq => hb (heq ▸ List.mem_cons_self)
  | cons c a ih =>
      cases b with
      | nil => exact absurd (List.cons_prefix_cons.mp h).1 fun heq => ha (heq ▸ List.mem_cons_self)
      | cons c' b =>
          obtain ⟨rfl, htail⟩ := List.cons_prefix_cons.mp h
          rw [ih (fun hmem => ha (List.mem_cons_of_mem _ hmem)) b
            (fun hmem => hb (List.mem_cons_of_mem _ hmem)) htail]

/-- **Every stock is queried as if it were alone.** Whatever queries of separate stocks are run on
one database, and in whatever order: the queries of each stock get the answers that they get
without the others, and leave the stock the rows and the snapshots that they leave without
them. -/
theorem stocks_are_isolated (h : Separate stocks) (db : D) {queries : List Config}
    (hstocks : ∀ cfg ∈ queries, cfg.stock ∈ stocks) {stock : List UInt8} (hstock : stock ∈ stocks) :
    (IsLocal.answers (queryStep clock host T) db queries).filter
    (fun e => decide (e.1.stock = stock))
        = IsLocal.answers (queryStep clock host T) db
            (queries.filter fun cfg => decide (cfg.stock = stock)) ∧
      stockView (run (queryStep clock host T) db queries) stock
        = stockView (run (queryStep clock host T) db
            (queries.filter fun cfg => decide (cfg.stock = stock))) stock := by
  obtain ⟨w, rfl⟩ : ∃ w : List { cfg : Config // cfg.stock ∈ stocks },
    w.map Subtype.val = queries :=
    ⟨queries.attachWith _ hstocks, List.attachWith_map_subtype_val hstocks⟩
  have hpart : ∀ query ∈ w, IsLocal.Respects (fun query => [⟨query.1.stock, query.2⟩])
      (fun s : stocks => decide (s.1 = stock)) query := by
    rintro ⟨cfg, hcfg⟩ -
    by_cases hcase : cfg.stock = stock
    · exact Or.inl (List.forall_mem_singleton.mpr (decide_eq_true hcase))
    · exact Or.inr (List.forall_mem_singleton.mpr (decide_eq_false hcase))
  obtain ⟨hview, hanswers⟩ := (@queryStep_isLocal D F _ _ clock host T _ stocks h).run_part hpart
    (s := db) (t := db) fun _ _ => rfl
  have htouches : IsLocal.Touches (fun query : { cfg : Config // cfg.stock ∈ stocks } =>
      [(⟨query.1.stock, query.2⟩ : stocks)]) (fun s => decide (s.1 = stock))
        = (fun cfg => decide (cfg.stock = stock)) ∘ Subtype.val :=
          funext fun query => Bool.or_false _
  rw [htouches] at hview hanswers
  rw [List.filter_map]
  constructor
  · rw [← answers_map _ Subtype.val, List.filter_map, ← answers_map _ Subtype.val, ← hanswers]
    rfl
  · rw [← run_map _ Subtype.val, ← run_map _ Subtype.val]
    exact hview ⟨stock, hstock⟩ (decide_eq_true rfl)

end

/-- A query of another stock between two queries of one. -/
def sampleQueries : List Config :=
  [⟨true, ascii "AAPL", ascii "2020-01-01T10:15:00Z"⟩,
    ⟨true, ascii "MSFT", ascii "2020-01-01T10:20:00Z"⟩,
    ⟨true, ascii "AAPL", ascii "2020-01-01T10:25:00Z"⟩]

theorem sampleQueries_stocks : ∀ cfg ∈ sampleQueries,
    cfg.stock ∈ { stock | '_'.toUInt8 ∉ stock } := by
  refine List.forall_mem_cons.mpr
    ⟨?_, List.forall_mem_cons.mpr ⟨?_, List.forall_mem_singleton.mpr ?_⟩⟩
  all_goals exact fun hmem => absurd hmem (by decide)

/-- The first and the last one get the answers that they get without it. -/
theorem query_between_changes_nothing :
    (IsLocal.answers (queryStep .nanoseconds .little SampleTable) (sampleDb 1577874000 (by decide))
        sampleQueries).filter (fun e => decide (e.1.stock = ascii "AAPL"))
      = IsLocal.answers (queryStep .nanoseconds .little SampleTable)
        (sampleDb 1577874000 (by decide))
          [⟨true, ascii "AAPL", ascii "2020-01-01T10:15:00Z"⟩,
            ⟨true, ascii "AAPL", ascii "2020-01-01T10:25:00Z"⟩] :=
  (stocks_are_isolated separate_of_no_underscore _ sampleQueries_stocks
    (sampleQueries_stocks _ List.mem_cons_self)).1

end TradingDesk.Query
