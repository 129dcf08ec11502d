import TradingDesk.Exec.Origins
import TradingDesk.Query.Isolation

/-!
# TradingDesk.Query.Provenance

**What can be relied on after any run of queries.** A snapshot may hold the state of a later
instant than the one in its key, and books made from it may be wrong. But whatever queries of
separate stocks are run on a database without snapshots, three things stay true. Every
snapshot can be read again, so a restore fails only where it makes a string of a null
pointer or a hash table overflows. A day never has more snapshots than a query asks for. And no book
has an order that was not entered on the requested day, before the requested quarter of an hour is
over, by a record of the stock.

`WellStored` is the invariant of one stock, and the frame of the other stocks' queries.
-/

namespace TradingDesk.Query

open TradingDesk.Core
open TradingDesk.Exec (Order OrderRecord OrderBook ExecutionEngine mem_makeBook)
open TradingDesk.Exec.ExecutionEngine (runOrder Fits)
open TradingDesk.Utils
open UnorderedMap (find?)

section

variable {D F : Type} [LawfulQdb D F] [DoubleArith F]
variable {T : Type} [UnorderedMap T UInt64 Order]
variable {db db' : D} {stock : List UInt8}

/-! ### The invariant -/

/-- The records of a stock from the midnight before an instant to the end of its quarter. -/
def recordsThrough (db : D) (stock : List UInt8) (t : Int) : List (OrderRecord F) :=
  recordsBetween db stock ⟨t / 86400 * 86400, 0⟩ ⟨quarter t + 900, 0⟩

omit [DoubleArith F] in
theorem recordsBetween_subset {first first' last last' : Timespec} (h₁ : first' ≤ first)
    (h₂ : last ≤ last') :
    recordsBetween db stock first last ⊆ recordsBetween db stock first' last' := by
  refine List.map_subset _ fun row hrow => ?_
  obtain ⟨hmem, hfirst, hlast⟩ := mem_between.mp hrow
  exact mem_between.mpr ⟨hmem, h₁.trans hfirst, lt_of_lt_of_le hlast h₂⟩

/-- A snapshot that can be read, of orders of its own day and no later quarter. -/
structure IsStored (host : ByteOrder) (T : Type) [UnorderedMap T UInt64 Order] (db : D)
    (stock : List UInt8) (u : Int) (content : List UInt8) : Prop where
  pos : 0 < u
  aligned : u % 900 = 0
  supported : u / 86400 ≤ maxDay
  state : ∃ e : ExecutionEngine T, content = e.serializeState host ∧
    e.EnteredBy (recordsThrough db stock u)

/-- **The invariant.** All snapshots of the stock can be read, and the log of the stock is one that
fits into memory. -/
structure WellStored (host : ByteOrder) (T : Type) [UnorderedMap T UInt64 Order] (db : D)
    (stock : List UInt8) : Prop where
  capacity : (LawfulQdb.rows db (ordersTable stock)).length < 2 ^ 58
  snapshots : ∀ key content, (LawfulQdb.blobs db).lookup key = some content →
    snapshotsOf stock <+: key → ∃ u, key = snapshotKey stock u ∧ IsStored host T db stock u content

variable {clock : SystemClock} {host : ByteOrder}

theorem IsStored.isSupported {u : Int} {content : List UInt8}
    (h : IsStored host T db stock u content) :
    Supported u := ⟨le_of_lt h.pos, h.supported⟩

theorem IsStored.congr
    (h : LawfulQdb.rows db (ordersTable stock) = LawfulQdb.rows db' (ordersTable stock))
    {u : Int} {content : List UInt8} (hu : IsStored host T db stock u content) :
    IsStored host T db' stock u content := by
  obtain ⟨hpos, haligned, hsupported, e, hcontent, hentered⟩ := hu
  refine ⟨hpos, haligned, hsupported, e, hcontent, ?_⟩
  rwa [recordsThrough, recordsBetween, ← h]

/-- The invariant is one of what the stock sees. -/
theorem WellStored.congr (hview : stockView db stock = stockView db' stock)
    (h : WellStored host T db stock) : WellStored host T db' stock := by
  have hrows := rows_of_stockView hview
  refine ⟨hrows ▸ h.capacity, fun key content hlookup hstart => ?_⟩
  rw [← lookup_of_stockView hview hstart] at hlookup
  obtain ⟨u, hkey, hu⟩ := h.snapshots key content hlookup hstart
  exact ⟨u, hkey, hu.congr hrows⟩

theorem WellStored.of_no_snapshots
    (hcapacity : (LawfulQdb.rows db (ordersTable stock)).length < 2 ^ 58)
    (hnone : ∀ e ∈ LawfulQdb.blobs db, ¬ snapshotsOf stock <+: e.1) :
    WellStored host T db stock := by
  refine ⟨hcapacity, fun key content hlookup hstart => ?_⟩
  obtain ⟨before, after, hblobs, -⟩ := List.lookup_eq_some_iff.mp hlookup
  exact absurd hstart (hnone (key, content) (by rw [hblobs]; simp))

/-- One more snapshot that can be read. -/
theorem WellStored.store (h : WellStored host T db stock) {u : Int} {content : List UInt8}
    (hu : IsStored host T db stock u content)
    (hstored : Stored db db' (snapshotKey stock u) content) : WellStored host T db' stock := by
  obtain ⟨hblobs, hrows⟩ := hstored
  have htable : LawfulQdb.rows db (ordersTable stock) = LawfulQdb.rows db' (ordersTable stock) := by
    rw [hrows]
  refine ⟨htable ▸ h.capacity, fun key content' hlookup hstart => ?_⟩
  rw [hblobs] at hlookup
  by_cases hkey : key = snapshotKey stock u
  · rw [if_pos hkey, Option.some.injEq] at hlookup
    exact ⟨u, hkey, hlookup ▸ hu.congr htable⟩
  · rw [if_neg hkey] at hlookup
    obtain ⟨u', hkey', hu'⟩ := h.snapshots key content' hlookup hstart
    exact ⟨u', hkey', hu'.congr htable⟩

/-! ### What a query starts from -/

variable {ymd : Ymd} {n : Int}

theorem WellStored.of_mem_snapshotKeys (h : WellStored host T db stock)
    (hymd : ymd.toCivil = Civil.ofDays n) {key : List UInt8}
    (hkey : key ∈ snapshotKeys db stock ymd) :
    ∃ u content, key = snapshotKey stock u ∧ (LawfulQdb.blobs db).lookup key = some content ∧
      IsStored host T db stock u content ∧ u / 86400 = n := by
  obtain ⟨⟨content, hlookup⟩, hday⟩ := mem_snapshotKeys.mp hkey
  obtain ⟨u, rfl, hu⟩ := h.snapshots key content hlookup
    ((snapshotsOf_isPrefix_snapshotsOfDay stock ymd).trans hday)
  exact ⟨u, content, rfl, hlookup, hu,
    (snapshotsOfDay_isPrefix_snapshotKey hymd hu.isSupported.fourDigitYear stock).mp hday⟩

theorem WellStored.quarterKeys (h : WellStored host T db stock)
    (hymd : ymd.toCivil = Civil.ofDays n) :
    QuarterKeys db stock ymd n := by
  intro key hkey
  obtain ⟨u, _, rfl, -, hu, hn⟩ := h.of_mem_snapshotKeys hymd hkey
  exact ⟨u, rfl, hu.aligned, hn⟩

/-- There are snapshots of the day, and all of them are too late. -/
def OnlyLater (db : D) (stock : List UInt8) (last : Timespec) (ymd : Ymd) : Prop :=
  snapshotKeys db stock ymd ≠ [] ∧ ∀ key ∈ snapshotKeys db stock ymd,
    makeSnapshotKey stock last < key

instance (db : D) (stock : List UInt8) (last : Timespec) (ymd : Ymd) :
    Decidable (OnlyLater db stock last ymd) := inferInstanceAs (Decidable (_ ∧ _))

omit [DoubleArith F] in
theorem recordsThrough_quarter {t : Int} (h : 0 ≤ t) :
    recordsThrough db stock (quarter t) = recordsThrough db stock t := by
  rw [recordsThrough, recordsThrough, quarter_div_day h, quarter_quarter h]

omit [DoubleArith F] in
theorem recordsThrough_subset {u t : Int} (hday : u / 86400 = t / 86400)
    (hle : quarter u ≤ quarter t) :
    recordsThrough db stock u ⊆ recordsThrough db stock t := by
  refine recordsBetween_subset (by rw [hday]) (Timespec.mk_le_mk.mpr ?_)
  omega

/-- The instant itself is in its quarter. -/
theorem lt_quarter_add (t : Int) : t < quarter t + 900 := by
  have hrem := Int.tmod_lt_of_pos t (show (0 : Int) < 900 by decide)
  rw [quarter]
  omega

omit [DoubleArith F] in
theorem selectSnapshot_of_onlyLater {w : Timespec} (hday : requestedDay w = .ok ymd)
    (hkeys : QuarterKeys db stock ymd n) (hlater : OnlyLater db stock w ymd) :
    selectSnapshot db stock w = .error .undefined := by
  obtain ⟨hsome, hlater⟩ := hlater
  have hlen := hkeys.length_le
  rw [selectSnapshot, hday, ok_bind, chooseKey_prefixGet, List.take_of_length_le (by omega)]
  cases hlist : snapshotKeys db stock ymd with
  | nil => exact absurd hlist hsome
  | cons key keys => simp only [chooseKey, findMatch_of_all_above (hlist ▸ hlater)]

/-- A snapshot that a query starts from. -/
structure StartsFrom (db : D) (stock : List UInt8) (t : Int) (snap : Timespec)
    (engine : ExecutionEngine T) : Prop where
  snap : snap = Timespec.zero ∨ ∃ u, snap = ⟨u, 0⟩ ∧ 0 < u ∧ u / 86400 = t / 86400
  entered : engine.EnteredBy (recordsThrough db stock t)

/-- **What is restored.** Where the snapshots of the day are all too late, the restore is undefined;
otherwise it answers with a snapshot that was read, or with nothing, or a table throws. -/
theorem WellStored.restoreSnapshot_cases (h : WellStored .little T db stock) {t : Int}
    (hclock : clock.Represents t) (hday : requestedDay ⟨t, 0⟩ = .ok ymd)
    (hymd : ymd.toCivil = Civil.ofDays (t / 86400)) :
    OnlyLater db stock ⟨t, 0⟩ ymd ∧
        restoreSnapshot clock .little db (ExecutionEngine.empty : ExecutionEngine T) stock ⟨t, 0⟩
          = .error .undefined ∨
      ¬ OnlyLater db stock ⟨t, 0⟩ ymd ∧
        (restoreSnapshot clock .little db (ExecutionEngine.empty : ExecutionEngine T) stock ⟨t, 0⟩
            = .error .overflow ∨
          ∃ snap engine,
            restoreSnapshot clock .little db (ExecutionEngine.empty : ExecutionEngine T) stock
            ⟨t, 0⟩ = .ok (snap, engine) ∧ StartsFrom db stock t snap engine) := by
  have hkeys := h.quarterKeys hymd
  by_cases hlater : OnlyLater db stock ⟨t, 0⟩ ymd
  · refine Or.inl ⟨hlater, ?_⟩
    rw [restoreSnapshot, selectSnapshot_of_onlyLater hday hkeys hlater]
    rfl
  refine Or.inr ⟨hlater, ?_⟩
  by_cases hnil : snapshotKeys db stock ymd = []
  · have hselect : selectSnapshot db stock ⟨t, 0⟩ = .ok none := by
      rw [selectSnapshot, hday, ok_bind, chooseKey_prefixGet, hnil]
      rfl
    exact Or.inr ⟨_, _, restoreSnapshot_of_none hselect, Or.inl rfl, .empty _⟩
  · -- one of the keys is not above the best one
    obtain ⟨key, hmem, hbest⟩ : ∃ key ∈ snapshotKeys db stock ymd,
      ¬ makeSnapshotKey stock ⟨t, 0⟩ < key := by
      by_contra hnone
      exact hlater ⟨hnil, fun key hkey => by_contra fun hnot => hnone ⟨key, hkey, hnot⟩⟩
    obtain ⟨u₀, _, rfl, -, hu₀, hun₀⟩ := h.of_mem_snapshotKeys hymd hmem
    have ht : Supported t := hu₀.isSupported.of_day hun₀.symm
    obtain ⟨u, idx, hselect, hdrop, hu, hun, hle, -⟩ := hkeys.selectSnapshot hday ht rfl hmem hbest
    obtain ⟨u', content, heq, hlookup, hu', -⟩ := h.of_mem_snapshotKeys hymd hu
    obtain rfl := snapshotKey_inj (ht.of_day hun).fourDigitYear hu'.isSupported.fourDigitYear heq
    obtain ⟨e, rfl, hentered⟩ := hu'.state
    have hfit : e.FitsSizeT := hentered.fitsSizeT
      (lt_of_le_of_lt (length_recordsBetween_le db stock _ _) h.capacity)
    have hrep := hclock.of_le hu'.pos.le (hle.trans (quarter_le ht.nonneg))
    obtain ⟨hrestores, hthrows⟩ := loadSnapshot_serializeState
      (ExecutionEngine.empty : ExecutionEngine T) hfit hlookup hdrop
      hu'.isSupported.fourDigitYear hrep
    rw [restoreSnapshot_of_some hselect]
    by_cases htakes : (ExecutionEngine.empty : ExecutionEngine T).Takes .little e
    case neg => exact Or.inl (hthrows htakes)
    obtain ⟨hload, hsame⟩ := hrestores htakes
    have hquarter : quarter u = u := by
      rw [quarter_of_nonneg hu'.isSupported.nonneg, hu'.aligned, Int.sub_zero]
    refine Or.inr ⟨⟨u, 0⟩, e.restored, hload, Or.inr ⟨u, rfl, hu'.pos, hun⟩, ?_⟩
    exact (hentered.congr hsame).mono (recordsThrough_subset hun (by rw [hquarter]; exact hle))

/-! ### One query -/

/-- How a query ends, apart from its answer: with the failure of its timestamp, or undefined
where all snapshots of its day are too late, or not at all. -/
def queryEnd (clock : SystemClock) (db : D) (cfg : Config) : Except Failure Unit := do
  let (_, last) ← getTimeRange clock cfg.when
  let ymd ← requestedDay last
  if cfg.pointInTime ∧ OnlyLater db cfg.stock last ymd then throw .undefined

/-- The orders of an answer were entered on the requested day, by the end of the requested
quarter. -/
def EnteredInTime (clock : SystemClock) (db : D) (cfg : Config) (answer : Answer) : Prop :=
  ∀ first last, getTimeRange clock cfg.when = .ok (first, last) → ∀ o ref,
    (o, ref) ∈ answer.buyingBook ∨ (o, ref) ∈ answer.sellingBook →
      ∃ r ∈ recordsThrough db cfg.stock last.sec, r.Enters ref o.price

variable {cfg : Config}

/-- What a query starts from, in all cases. -/
theorem WellStored.startOf_cases (h : WellStored .little T db cfg.stock) {t : Int}
    (hclock : clock.Represents t) (hday : requestedDay ⟨t, 0⟩ = .ok ymd)
    (hymd : ymd.toCivil = Civil.ofDays (t / 86400)) :
    (cfg.pointInTime ∧ OnlyLater db cfg.stock ⟨t, 0⟩ ymd) ∧
        startOf clock .little T db cfg ⟨t, 0⟩ = .error .undefined ∨
      ¬ (cfg.pointInTime ∧ OnlyLater db cfg.stock ⟨t, 0⟩ ymd) ∧
        (startOf clock .little T db cfg ⟨t, 0⟩ = .error .overflow ∨
          ∃ snap engine, startOf clock .little T db cfg ⟨t, 0⟩ = .ok (snap, engine) ∧
            StartsFrom db cfg.stock t snap engine) := by
  unfold startOf
  cases cfg.pointInTime with
  | false => exact Or.inr ⟨fun hc => (nomatch hc.1), Or.inr ⟨_, _, rfl, Or.inl rfl, .empty _⟩⟩
  | true => simpa using h.restoreSnapshot_cases hclock hday hymd

/-- The records that a query runs are of its day, and of no later quarter. -/
theorem StartsFrom.recordsFrom_subset {t : Int} {snap : Timespec} {engine : ExecutionEngine T}
    (h : StartsFrom db stock t snap engine) {orders : OrderRecords F}
    (horders : orders.map Prod.snd = recordsBetween db stock
      (if snap ≠ Timespec.zero then snap else ⟨t / 86400 * 86400, 0⟩) ⟨t, 0⟩) :
    recordsFrom snap orders ⊆ recordsThrough db stock t := by
  have hread : recordsFrom snap orders ⊆ orders.map Prod.snd := by
    refine List.map_subset _ ?_
    split
    · exact (List.dropWhile_sublist _).subset
    · exact List.Subset.refl _
  refine List.Subset.trans hread ?_
  rw [horders]
  refine recordsBetween_subset ?_ (Timespec.mk_le_mk.mpr (le_of_lt (lt_quarter_add t)))
  split
  · rename_i hsnap
    obtain hzero | ⟨u, rfl, -, hun⟩ := h.snap
    · exact absurd hzero hsnap
    · rw [Timespec.mk_le_mk, ← hun]
      omega
  · exact le_rfl

/-- The snapshot that a query leaves behind. -/
theorem StartsFrom.isStored {t : Int} {snap : Timespec} {engine : ExecutionEngine T}
    (h : StartsFrom db stock t snap engine) (hmax : t / 86400 ≤ maxDay)
    (hlt : snap < getSnapshotTimestamp ⟨t, 0⟩) {e : ExecutionEngine T}
    (he : e.EnteredBy (recordsThrough db stock t)) :
    0 ≤ t ∧ IsStored host T db stock (quarter t) (e.serializeState host) := by
  have hpos : 0 < quarter t := by
    rw [getSnapshotTimestamp_eq] at hlt
    obtain rfl | ⟨u, rfl, hu, -⟩ := h.snap
    · exact Timespec.mk_lt_mk.mp hlt
    · exact hu.trans (Timespec.mk_lt_mk.mp hlt)
  have ht := nonneg_of_quarter_pos hpos
  have hquarter := quarter_of_nonneg ht
  refine ⟨ht, hpos, by omega, by rw [quarter_div_day ht]; exact hmax, e, rfl, ?_⟩
  rwa [recordsThrough_quarter ht]

/-- A query ends as `queryEnd` says, or with the exception of a table, which stores nothing. -/
def EndsAsItHasTo (clock : SystemClock) (T : Type)
    [UnorderedMap T UInt64 Order] (db : D) (cfg : Config) : Prop :=
  (queryStep clock .little T db cfg).1.map (fun _ => ()) = queryEnd clock db cfg ∨
    queryEnd clock db cfg = .ok () ∧ queryStep clock .little T db cfg = (.error .overflow, db)

/-- **Step lemma.** On snapshots that can be read a query ends as it has to, its books have the
orders of its day only, and it leaves snapshots that can be read. -/
theorem WellStored.queryStep (h : WellStored .little T db cfg.stock) :
    EndsAsItHasTo clock T db cfg ∧
      (∀ answer, (queryStep clock .little T db cfg).1 = .ok answer →
        EnteredInTime clock db cfg answer) ∧
      WellStored .little T (queryStep clock .little T db cfg).2 cfg.stock := by
  rcases hrange : getTimeRange clock cfg.when with failure | ⟨first, last⟩
  · rw [EndsAsItHasTo, queryStep_of_range_error hrange, queryEnd, hrange]
    exact ⟨Or.inl rfl, fun _ hok => (nomatch hok), h⟩
  obtain ⟨t, hclock, hbounds, hn, rfl, rfl⟩ := getTimeRange_ok hrange
  obtain ⟨ymd, hday, hymd⟩ := @requestedDay_eq ⟨t, 0⟩ hbounds hn
  have hend : queryEnd clock db cfg
      = if cfg.pointInTime ∧ OnlyLater db cfg.stock ⟨t, 0⟩ ymd
        then .error .undefined else .ok () := by
    rw [queryEnd, hrange, ok_bind]
    simp only [hday, ok_bind]
    rfl
  rw [EndsAsItHasTo, hend]
  rcases h.startOf_cases hclock hday hymd with
    ⟨hlater, hstart⟩ | ⟨hnot, hstart | ⟨snap, engine, hstart, hfrom⟩⟩
  · rw [queryStep_of_start_error hrange hstart, if_pos hlater]
    exact ⟨Or.inl rfl, fun _ hok => (nomatch hok), h⟩
  · rw [queryStep_of_start_error hrange hstart, if_neg hnot]
    exact ⟨Or.inr ⟨rfl, rfl⟩, fun _ hok => (nomatch hok), h⟩
  obtain ⟨orders, horders, hmap, -⟩ := getOrdersRecords_ok db cfg.stock
    (if snap ≠ Timespec.zero then snap else ⟨t / 86400 * 86400, 0⟩) ⟨t, 0⟩
  by_cases hfits : Along runOrder Fits engine (recordsFrom snap orders)
  case neg =>
    rw [queryStep_of_overflow hrange hstart horders hfits, if_neg hnot]
    exact ⟨Or.inr ⟨rfl, rfl⟩, fun _ hok => (nomatch hok), h⟩
  obtain ⟨hanswer, hdb⟩ := queryStep_of_start hrange hstart horders hfits
  have hentered := hfrom.entered.run (hfrom.recordsFrom_subset hmap)
  rw [if_neg hnot]
  refine ⟨Or.inl (by rw [hanswer]; rfl), fun answer hok first' last' hrange' o ref hbook => ?_, ?_⟩
  · rw [hrange] at hrange'
    cases hrange'
    rw [hanswer] at hok
    cases hok
    rcases hbook with hbuy | hsell
    · exact hentered .buy ref o (mem_makeBook.mp hbuy)
    · exact hentered .sell ref o (mem_makeBook.mp hsell)
  · split at hdb
    · rename_i hstore
      obtain ⟨ht, hstored⟩ : 0 ≤ t ∧ IsStored .little T db cfg.stock (quarter t) _ :=
        hfrom.isStored hn.2 hstore.2.2 hentered
      rw [makeSnapshotKey_getSnapshotTimestamp ht, makeSnapshotKey_eq] at hdb
      exact h.store hstored hdb
    · rw [hdb]
      exact h

/-! ### Runs of queries -/

variable {stocks : Set (List UInt8)}

/-- A query leaves the snapshots of all stocks readable. -/
theorem wellStored_queryStep (hsep : Separate stocks)
    (h : ∀ stock ∈ stocks, WellStored .little T db stock) (hcfg : cfg.stock ∈ stocks) :
    ∀ stock ∈ stocks, WellStored .little T (queryStep clock .little T db cfg).2 stock := by
  intro stock hstock
  by_cases heq : stock = cfg.stock
  · subst heq
    exact (h _ hcfg).queryStep.2.2
  · have hframe := (@queryStep_isLocal D F _ _ clock .little T _ stocks hsep).frame db
      (⟨cfg, hcfg⟩ : { cfg : Config // cfg.stock ∈ stocks }) (i := ⟨stock, hstock⟩)
      fun hmem => heq (congrArg Subtype.val (List.mem_singleton.mp hmem))
    exact (h stock hstock).congr hframe.symm

/-- A database whose stocks have no snapshots, and logs that fit into memory. -/
structure Fresh (db : D) (stocks : Set (List UInt8)) : Prop where
  capacity : ∀ stock ∈ stocks, (LawfulQdb.rows db (ordersTable stock)).length < 2 ^ 58
  no_snapshots : ∀ stock ∈ stocks, ∀ e ∈ LawfulQdb.blobs db, ¬ snapshotsOf stock <+: e.1

/-- The rule for runs: what holds of every query on readable snapshots. -/
theorem along_of_wellStored (hsep : Separate stocks)
    (hfresh : Fresh db stocks) {queries : List Config}
    (hstocks : ∀ cfg ∈ queries, cfg.stock ∈ stocks) {Q : D → Config → Prop}
    (hQ : ∀ db cfg, WellStored .little T db cfg.stock → Q db cfg) :
    Along (queryStep clock .little T) Q db queries := by
  refine along_induction (P := fun _ cfg => cfg.stock ∈ stocks)
    (fun db => ∀ stock ∈ stocks, WellStored .little T db stock) ?_ ?_
    (Along.of_forall_mem (fun cfg hcfg _ => hstocks cfg hcfg) db)
  · intro stock hstock
    exact .of_no_snapshots (hfresh.capacity stock hstock) (hfresh.no_snapshots stock hstock)
  · intro db cfg h hcfg
    exact ⟨hQ db cfg (h _ hcfg), wellStored_queryStep hsep h hcfg⟩

/-- **How queries can end.** Whatever queries of separate stocks are run on a fresh database by a
little-endian host, each ends with the failure of its timestamp, or undefined where there are
snapshots of its day and all are too late, or with an answer, or with the exception of a hash
table that overflows. A snapshot never fails to be read otherwise, and a day never has more of
them than the restore asks for. -/
theorem queries_end_as_they_have_to (clock : SystemClock)
    (T : Type) [UnorderedMap T UInt64 Order] (hsep : Separate stocks)
    (hfresh : Fresh db stocks) {queries : List Config}
    (hstocks : ∀ cfg ∈ queries, cfg.stock ∈ stocks) :
    Along (queryStep clock .little T) (fun db cfg =>
      EndsAsItHasTo clock T db cfg ∧
        ∀ w ymd, Supported w.sec → requestedDay w = .ok ymd →
          (snapshotKeys db cfg.stock ymd).length ≤ 96) db queries := by
  refine along_of_wellStored hsep hfresh hstocks fun db cfg h =>
    ⟨h.queryStep.1, fun w ymd hw hday => ?_⟩
  obtain ⟨ymd', hday', hymd⟩ := hw.requestedDay
  obtain rfl : ymd' = ymd := Except.ok.inj (hday'.symm.trans hday)
  exact (h.quarterKeys hymd).length_le

/-- **Where the orders of an answer come from.** Whatever queries of separate stocks are run on a
fresh database by a little-endian host, every order of an answer was entered under its
reference and at its price by a record of the stock, from the midnight of the requested day
on, and before the requested quarter of an hour is over. -/
theorem answers_are_of_their_day (clock : SystemClock)
    (T : Type) [UnorderedMap T UInt64 Order] (hsep : Separate stocks)
    (hfresh : Fresh db stocks) {queries : List Config}
    (hstocks : ∀ cfg ∈ queries, cfg.stock ∈ stocks) :
    Along (queryStep clock .little T) (fun db cfg => ∀ answer,
      (queryStep clock .little T db cfg).1 = .ok answer → EnteredInTime clock db cfg answer)
        db queries :=
  along_of_wellStored hsep hfresh hstocks fun _ _ h => h.queryStep.2.1

end

/-! ### A run of three queries -/

theorem sampleDb_fresh :
    Fresh (sampleDb 1577874000 (by decide)) { stock | '_'.toUInt8 ∉ stock } := by
  refine ⟨fun stock _ => ?_, fun stock _ e he => absurd he List.not_mem_nil⟩
  change (MemoryDb.rows _ (ordersTable stock)).length < 2 ^ 58
  rw [MemoryDb.rows, sampleDb, List.lookup_cons]
  split
  · exact (by decide : 2 < 2 ^ 58)
  · exact (by decide : 0 < 2 ^ 58)

theorem sample_queries_end :
    EndsAsItHasTo .nanoseconds SampleTable (sampleDb 1577874000 (by decide))
      ⟨true, ascii "AAPL", ascii "2020-01-01T10:15:00Z"⟩ :=
  (queries_end_as_they_have_to .nanoseconds SampleTable separate_of_no_underscore sampleDb_fresh
    sampleQueries_stocks).1.1

theorem sample_answers_are_of_their_day :
    Along (queryStep .nanoseconds .little SampleTable) (fun db cfg => ∀ answer,
      (queryStep .nanoseconds .little SampleTable db cfg).1 = .ok answer →
        EnteredInTime .nanoseconds db cfg answer)
      (sampleDb 1577874000 (by decide)) sampleQueries :=
  answers_are_of_their_day .nanoseconds SampleTable
    separate_of_no_underscore sampleDb_fresh sampleQueries_stocks

end TradingDesk.Query
