import TradingDesk.Exec.RobinHood
import TradingDesk.Exec.Serialize

/-!
# TradingDesk.Exec.RoundTrip

**A snapshot reads back as the state it was written from.** On a little-endian host
the orders the reader finds in an encoded map are the orders the writer listed, so
it inserts each of them once, into a table it has cleared before; the contents come
out the same, wherever either table keeps its entries. What a host of either kind
finds there is `reread`.
-/

namespace TradingDesk.Exec

open TradingDesk.Core
open UnorderedMap (find? size toList clear reserve emplaceAll Refills)

/-! ### One map -/

/-- What a host reads where an order was encoded: it takes the little-endian bytes as its
own. -/
def reread (host : ByteOrder) (o : UInt64 × Order) : UInt64 × Order :=
  (.ofNat (host.nativeToLittle 8 o.1.toNat),
    ⟨.ofNat (host.nativeToLittle 4 o.2.price.toNat),
      .ofNat (host.nativeToLittle 4 o.2.shares.toNat)⟩)

theorem reread_little : reread .little = id := by
  funext o
  simp [reread, ByteOrder.nativeToLittle]

theorem entryAt_encodeOrder (host : ByteOrder) {mem : Memory} {p : Nat} {o : UInt64 × Order}
    (h : mem.bytes p 16 = encodeOrder o) : entryAt host mem p = reread host o := by
  obtain ⟨reference, price, shares⟩ := o
  rw [encodeOrder, List.append_assoc] at h
  obtain ⟨href, htail⟩ := Memory.bytes_eq_append h
  obtain ⟨hprice, hshares⟩ := Memory.bytes_eq_append (n := 8) (by simpa using htail)
  simp only [length_toBytes] at href hprice hshares
  have hword : host.load (toBytes 8 reference.toNat) = host.nativeToLittle 8 reference.toNat :=
    host.load_toBytes reference.toNat_lt
  have hhalf : ∀ v : UInt32, host.load (toBytes 4 v.toNat) = host.nativeToLittle 4 v.toNat :=
    fun v => host.load_toBytes v.toNat_lt
  simp only [entryAt, href, hprice, hshares, hword, hhalf, reread]

theorem entriesAt_encodeOrders (host : ByteOrder) {mem : Memory} {p : Nat}
    {entries : List (UInt64 × Order)}
    (h : mem.bytes p (16 * entries.length) = encodeOrders entries) :
    entriesAt host mem p entries.length = entries.map (reread host) := by
  induction entries generalizing p with
  | nil => rfl
  | cons o entries ih =>
      have hsplit : encodeOrders (o :: entries) = encodeOrder o ++ encodeOrders entries := rfl
      obtain ⟨hone, hrest⟩ := Memory.bytes_eq_append (hsplit ▸ h)
      rw [length_encodeOrder] at hone hrest
      rw [length_encodeOrders] at hrest
      rw [List.length_cons, entriesAt, entryAt_encodeOrder host hone, ih hrest, List.map_cons]

/-- The size field of an encoded map. -/
theorem storedCount_encodeMap (host : ByteOrder) {mem : Memory} {p : Cursor}
    {entries : List (UInt64 × Order)} (hlen : entries.length < 2 ^ 64)
    (h : mem.bytes p.p (8 + 16 * entries.length) = encodeMap entries) :
    storedCount host mem p = host.nativeToLittle 8 entries.length := by
  have hcount := (Memory.bytes_eq_append h).1
  rw [length_toBytes] at hcount
  rw [storedCount, hcount, host.load_toBytes hlen]

/-- The orders of an encoded map, where its size field reads as its size. -/
theorem storedOrders_encodeMap {host : ByteOrder} {mem : Memory} {p : Cursor}
    {entries : List (UInt64 × Order)} (hcount : storedCount host mem p = entries.length)
    (hl : (8 + 16 * entries.length : Nat) ≤ p.l)
    (h : mem.bytes p.p (8 + 16 * entries.length) = encodeMap entries) :
    storedOrders host mem p = entries.map (reread host) := by
  have horders := (Memory.bytes_eq_append h).2
  rw [length_toBytes, length_encodeOrders] at horders
  have hmin : min (storedCount host mem p) ((p.l - 8).toNat / 16) = entries.length := by omega
  rw [storedOrders, hmin, entriesAt_encodeOrders host horders]

variable {T : Type} [UnorderedMap T UInt64 Order]

/-- What a host reads from the encoding of a table are the contents of the table. -/
structure ReadsBack (host : ByteOrder) (orders : T) : Prop where
  /-- The size field reads as the size. -/
  count : host.nativeToLittle 8 (size orders) = size orders
  /-- The orders read as the orders. -/
  contents (reference : UInt64) :
    ((toList orders).map (reread host)).lookup reference = find? orders reference

theorem readsBack_little (orders : T) : ReadsBack .little orders where
  count := rfl
  contents reference := by rw [reread_little, List.map_id, UnorderedMap.lookup_toList]

/-- A table, once it is emptied and made as large as another one, takes what a host reads where
the other one was encoded: no insertion throws. -/
def TakesFrom (host : ByteOrder) (m orders : T) : Prop :=
  Refills m (size orders) ((toList orders).map (reread host))

/-- The table that comes out of it. -/
def refill (host : ByteOrder) (m orders : T) : T :=
  emplaceAll ((reserve (clear m) (size orders)).getD (clear m)) ((toList orders).map (reread host))

/-- An encoded table, at a cursor that all of it is left for. -/
structure HoldsEncoded (mem : Memory) (p : Cursor) (orders : T) : Prop where
  /-- Its size is one of a table in memory. -/
  small : size orders < 2 ^ 60
  bytes : mem.bytes p.p (8 + 16 * size orders) = encodeMap (toList orders)
  covered : (8 + 16 * size orders : Nat) ≤ p.l

section

variable {host : ByteOrder} {mem : Memory} {p : Cursor} {orders : T}

theorem HoldsEncoded.storedCount_eq (h : HoldsEncoded mem p orders)
    (hback : ReadsBack host orders) :
    storedCount host mem p = size orders := by
  obtain ⟨hsmall, hbytes, -⟩ := h
  have hcount := hback.count
  rw [UnorderedMap.size_eq] at hsmall hbytes hcount ⊢
  exact (storedCount_encodeMap host (by omega) hbytes).trans hcount

theorem HoldsEncoded.storedOrders_eq (h : HoldsEncoded mem p orders)
    (hback : ReadsBack host orders) :
    storedOrders host mem p = (toList orders).map (reread host) := by
  have hcount := h.storedCount_eq hback
  obtain ⟨-, hbytes, hcovered⟩ := h
  rw [UnorderedMap.size_eq] at hbytes hcovered hcount
  exact storedOrders_encodeMap hcount hcovered hbytes

theorem HoldsEncoded.takesOrders_iff (h : HoldsEncoded mem p orders) (hback : ReadsBack host orders)
    {m : T} : TakesOrders host mem p m ↔ TakesFrom host m orders := by
  rw [TakesOrders, TakesFrom, h.storedCount_eq hback, h.storedOrders_eq hback]

/-- The reader of one map: it succeeds, moves past the encoding, and leaves the
contents of the table that was encoded. -/
theorem deserializeOrderMap_encodeMap (hback : ReadsBack host orders)
    (hstored : HoldsEncoded mem p orders) {m : T} (htakes : TakesFrom host m orders) :
    deserializeOrderMap host mem p m
        = (some true, p.skip (8 + 16 * size orders), refill host m orders) ∧
      find? (refill host m orders) = find? orders := by
  have hcount := hstored.storedCount_eq hback
  have hcovered := hstored.covered
  have hroom : (reserve (clear m) (storedCount host mem p)).isSome := by
    rw [hcount]
    exact UnorderedMap.reserve_of_le_size m orders le_rfl hstored.small
  obtain ⟨m', hread, hmap⟩ := deserializeOrderMap_of_covers
    (by rw [hcount]; exact_mod_cast hcovered) hroom ((hstored.takesOrders_iff hback).mpr htakes)
  obtain ⟨⟨room, hroom', hfilled⟩, -⟩ := deserializeOrderMap_filled (by omega) hread
  rw [hcount] at hread hroom'
  obtain rfl : m' = refill host m orders := by
    rw [hfilled, refill, hroom', hstored.storedOrders_eq hback]
    rfl
  refine ⟨hread, hmap.trans (funext fun k => ?_)⟩
  rw [hstored.storedOrders_eq hback, hback.contents]

/-- The reader of one map throws if the table does not take the orders. -/
theorem deserializeOrderMap_of_not_takesFrom (hback : ReadsBack host orders)
    (hstored : HoldsEncoded mem p orders) {m : T} (hover : ¬ TakesFrom host m orders) :
    (deserializeOrderMap host mem p m).1 = none := by
  have hcovered := hstored.covered
  exact deserializeOrderMap_of_not_takes (by omega)
    fun htakes => hover ((hstored.takesOrders_iff hback).mp htakes)

end

/-! ### The state -/

/-- Two engines hold the same orders, table by table. -/
def ExecutionEngine.SameOrders (e e' : ExecutionEngine T) : Prop :=
  find? e.allBuyOrders = find? e'.allBuyOrders ∧ find? e.allSellOrders = find? e'.allSellOrders

/-- Both tables of a receiver take what a host reads where the state was encoded. -/
def ExecutionEngine.Takes (host : ByteOrder) (receiver e : ExecutionEngine T) : Prop :=
  TakesFrom host receiver.allBuyOrders e.allBuyOrders ∧
    TakesFrom host receiver.allSellOrders e.allSellOrders

/-- The receiver afterwards. -/
def ExecutionEngine.refilled (host : ByteOrder) (receiver e : ExecutionEngine T) :
    ExecutionEngine T :=
  ⟨refill host receiver.allBuyOrders e.allBuyOrders,
    refill host receiver.allSellOrders e.allSellOrders⟩

namespace ExecutionEngine

variable {e : ExecutionEngine T}

theorem serializeState_eq (host : ByteOrder) (hfit : e.FitsSizeT) :
    e.serializeState host
      = encodeMap (toList e.allBuyOrders) ++ encodeMap (toList e.allSellOrders) := by
  have hbuy := UnorderedMap.size_eq e.allBuyOrders
  have hsell := UnorderedMap.size_eq e.allSellOrders
  have hlen : (encodeMap (toList e.allBuyOrders) ++ encodeMap (toList e.allSellOrders)).length
      = 16 + 16 * (size e.allBuyOrders + size e.allSellOrders) := by
    rw [List.length_append, length_encodeMap, length_encodeMap]
    omega
  rw [serializeState, serializeStateTo_eq host hfit, Writer.wrote, hlen, Nat.sub_self]
  exact List.append_nil _

theorem length_serializeState (host : ByteOrder) (hfit : e.FitsSizeT) :
    (e.serializeState host).length = 16 + 16 * (size e.allBuyOrders + size e.allSellOrders) := by
  rw [serializeState_eq host hfit, List.length_append, length_encodeMap, length_encodeMap,
    UnorderedMap.size_eq, UnorderedMap.size_eq]
  omega

/-- The two encoded maps of a state, wherever in memory its bytes are and whatever is behind
them. -/
theorem holdsEncoded_serializeState {writer : ByteOrder} {mem : Memory} {p : Cursor}
    (hfit : e.FitsSizeT)
    (hmem : mem.bytes p.p (e.serializeState writer).length = e.serializeState writer)
    (hl : ((e.serializeState writer).length : Int) ≤ p.l) :
    HoldsEncoded mem p e.allBuyOrders ∧
      HoldsEncoded mem (p.skip (8 + 16 * size e.allBuyOrders)) e.allSellOrders := by
  have hfit' : 16 + 16 * (size e.allBuyOrders + size e.allSellOrders) < 2 ^ 64 := hfit
  have hlen := length_serializeState writer hfit
  rw [serializeState_eq writer hfit] at hmem
  obtain ⟨hbuys, hsells⟩ := Memory.bytes_eq_append hmem
  rw [length_encodeMap, ← UnorderedMap.size_eq] at hbuys hsells
  rw [length_encodeMap, ← UnorderedMap.size_eq] at hsells
  rw [hlen] at hl
  push_cast at hl
  constructor
  · exact ⟨by omega, hbuys, by push_cast; omega⟩
  · exact ⟨by omega, hsells, by rw [Cursor.skip_l]; push_cast; omega⟩

/-- The reader of a state. -/
theorem deserializeState_of_readsBack {writer host : ByteOrder} {mem : Memory} {p : Cursor}
    (hfit : e.FitsSizeT) (hbuy : ReadsBack host e.allBuyOrders)
    (hsell : ReadsBack host e.allSellOrders)
    (hmem : mem.bytes p.p (e.serializeState writer).length = e.serializeState writer)
    (hl : ((e.serializeState writer).length : Int) ≤ p.l) {receiver : ExecutionEngine T}
    (htakes : receiver.Takes host e) :
    receiver.deserializeState host mem p
        = (some true, p.skip (e.serializeState writer).length, receiver.refilled host e) ∧
      (receiver.refilled host e).SameOrders e := by
  obtain ⟨hbuys, hsells⟩ := holdsEncoded_serializeState hfit hmem hl
  obtain ⟨hreadBuy, hsameBuy⟩ := deserializeOrderMap_encodeMap hbuy hbuys htakes.1
  obtain ⟨hreadSell, hsameSell⟩ := deserializeOrderMap_encodeMap hsell hsells htakes.2
  refine ⟨?_, hsameBuy, hsameSell⟩
  -- the sell map is read into what the receiver held
  have hother :
      (receiver.setSide .buy (refill host receiver.allBuyOrders e.allBuyOrders)).allSellOrders
      = receiver.allSellOrders := rfl
  have hsum : 8 + 16 * size e.allBuyOrders + (8 + 16 * size e.allSellOrders)
      = (e.serializeState writer).length := by
    rw [length_serializeState writer hfit]
    omega
  simp only [deserializeState, hreadBuy, hother, hreadSell, Cursor.skip_skip, hsum]
  rfl

/-- The reader of a state throws if a table does not take its orders. -/
theorem deserializeState_of_not_takes {writer host : ByteOrder} {mem : Memory} {p : Cursor}
    (hfit : e.FitsSizeT) (hbuy : ReadsBack host e.allBuyOrders)
    (hsell : ReadsBack host e.allSellOrders)
    (hmem : mem.bytes p.p (e.serializeState writer).length = e.serializeState writer)
    (hl : ((e.serializeState writer).length : Int) ≤ p.l) {receiver : ExecutionEngine T}
    (hover : ¬ receiver.Takes host e) : (receiver.deserializeState host mem p).1 = none := by
  obtain ⟨hbuys, hsells⟩ := holdsEncoded_serializeState hfit hmem hl
  by_cases htakes : TakesFrom host receiver.allBuyOrders e.allBuyOrders
  · have hthrows := deserializeOrderMap_of_not_takesFrom hsell hsells
      (m := receiver.allSellOrders) fun htakes' => hover ⟨htakes, htakes'⟩
    simp only [deserializeState, (deserializeOrderMap_encodeMap hbuy hbuys htakes).1]
    exact hthrows
  · have hthrows := deserializeOrderMap_of_not_takesFrom hbuy hbuys htakes
    rcases hread : deserializeOrderMap host mem p receiver.allBuyOrders with ⟨done, p', buys⟩
    rw [hread] at hthrows
    obtain rfl : done = none := hthrows
    simp only [deserializeState, hread]

theorem takes_of_deserializeState {writer host : ByteOrder} {mem : Memory} {p p' : Cursor}
    (hfit : e.FitsSizeT) (hbuy : ReadsBack host e.allBuyOrders)
    (hsell : ReadsBack host e.allSellOrders)
    (hmem : mem.bytes p.p (e.serializeState writer).length = e.serializeState writer)
    (hl : ((e.serializeState writer).length : Int) ≤ p.l) {receiver e' : ExecutionEngine T}
    {done : Bool} (hread : receiver.deserializeState host mem p = (some done, p', e')) :
    receiver.Takes host e := by
  by_contra hover
  have hthrows := deserializeState_of_not_takes hfit hbuy hsell hmem hl hover
  rw [hread] at hthrows
  cases hthrows

/-- A little-endian host reads what any host wrote. -/
theorem deserializeState_serializeState {writer : ByteOrder} {mem : Memory} {p : Cursor}
    (hfit : e.FitsSizeT)
    (hmem : mem.bytes p.p (e.serializeState writer).length = e.serializeState writer)
    (hl : ((e.serializeState writer).length : Int) ≤ p.l) {receiver : ExecutionEngine T}
    (htakes : receiver.Takes .little e) :
    receiver.deserializeState .little mem p
        = (some true, p.skip (e.serializeState writer).length, receiver.refilled .little e) ∧
      (receiver.refilled .little e).SameOrders e :=
  deserializeState_of_readsBack hfit (readsBack_little _) (readsBack_little _) hmem hl htakes

end ExecutionEngine

/-- A lists' reader takes everything. -/
theorem takes_assocList (host : ByteOrder)
    (receiver e : ExecutionEngine (AssocList UInt64 Order)) : receiver.Takes host e :=
  ⟨fun room _ => room.admits _, fun room _ => room.admits _⟩

/-- The round trip of a state through its bytes and any others behind them, on a little-endian host.
The encoded state has sixteen bytes and sixteen more for each order, the writer fills its
buffer exactly and within bounds, and reading it back succeeds, gives the receiver the orders of
the original whatever it held before, and stops at the first byte that is not the state's. -/
structure RoundTrips (e receiver : ExecutionEngine T) (trailing : List UInt8) (mem : Memory) :
    Prop where
  length : (e.serializeState .little).length
    = 16 + 16 * (size e.allBuyOrders + size e.allSellOrders)
  written : (e.serializeStateTo .little).cursor = ⟨(e.serializeState .little).length, 0, true⟩
  read : ∃ e', receiver.deserializeState .little mem
        (.start (e.serializeState .little ++ trailing).length)
      = (some true, ⟨(e.serializeState .little).length, trailing.length, true⟩, e') ∧
    e'.SameOrders e
  rest : mem.bytes (e.serializeState .little).length trailing.length = trailing

/-- **Snapshot round trip.** A state comes back if and only if the tables of the receiver take
its orders in the order in which the writer lists them. -/
theorem snapshot_round_trip_iff (e receiver : ExecutionEngine T) (hfit : e.FitsSizeT)
    (trailing : List UInt8) {mem : Memory}
    (hmem : mem.bytes 0 (e.serializeState .little ++ trailing).length
      = e.serializeState .little ++ trailing) :
    RoundTrips e receiver trailing mem ↔ receiver.Takes .little e := by
  obtain ⟨hstate, htrailing⟩ := Memory.bytes_eq_append hmem
  have hl : ((e.serializeState .little).length : Int)
      ≤ (Cursor.start (e.serializeState .little ++ trailing).length).l := by
    simp [Cursor.start]
  constructor
  · intro hround
    obtain ⟨e', hread, -⟩ := hround.read
    exact ExecutionEngine.takes_of_deserializeState hfit (readsBack_little _) (readsBack_little _)
      (p := .start (e.serializeState .little ++ trailing).length) hstate hl hread
  · intro htakes
    have hlen := ExecutionEngine.length_serializeState .little hfit
    obtain ⟨hread, hsame⟩ := ExecutionEngine.deserializeState_serializeState hfit
      (p := .start (e.serializeState .little ++ trailing).length) hstate hl htakes
    refine ⟨hlen, ?_, ⟨_, ?_, hsame⟩, by simpa using htrailing⟩
    · rw [e.serializeStateTo_eq .little hfit, Writer.wrote,
        ← ExecutionEngine.serializeState_eq .little hfit, hlen]
      simp [Cursor.start, Cursor.skip]
    · rw [hread]
      simp [Cursor.start, Cursor.skip]

/-- **A crowd that does not come back.** 128 buying orders rest in a table that once had room for
more. Room is made for 128 in the table of an empty engine, which throws at the last of them. -/
theorem crowd_is_not_restored :
    let e : ExecutionEngine (RobinHood.Table Order) := ⟨RobinHood.crowdedTable, UnorderedMap.empty⟩
    let mem : Memory := .ofList (e.serializeState .little ++ []) 0
    ((ExecutionEngine.empty : ExecutionEngine (RobinHood.Table Order)).deserializeState .little mem
        (.start (e.serializeState .little ++ []).length)).1 = none ∧
      ¬ RoundTrips e ExecutionEngine.empty [] mem := by
  intro e mem
  have hsize : size e.allBuyOrders = 128 := by
    rw [UnorderedMap.size_eq, RobinHood.toList_crowdedTable, RobinHood.length_bought]
  have hfit : e.FitsSizeT := by
    rw [ExecutionEngine.FitsSizeT, hsize]
    exact (by decide : 16 + 16 * (128 + 0) < 2 ^ 64)
  have hover :
      ¬ (ExecutionEngine.empty : ExecutionEngine (RobinHood.Table Order)).Takes .little e := by
    intro htakes
    have hrefills := htakes.1
    rw [TakesFrom, reread_little, List.map_id, UnorderedMap.size_eq, RobinHood.toList_crowdedTable]
      at hrefills
    exact RobinHood.Table.not_refills_crowd _ (RobinHood.keys_bought _) hrefills
  have hmem : mem.bytes 0 (e.serializeState .little).length = e.serializeState .little :=
    (Memory.bytes_eq_append (Memory.bytes_ofList_zero (e.serializeState .little ++ []) 0)).1
  have hthrows := ExecutionEngine.deserializeState_of_not_takes hfit (readsBack_little _)
    (readsBack_little _) (p := .start (e.serializeState .little ++ []).length) hmem
    (Int.ofNat_le.mpr (by rw [List.append_nil])) hover
  refine ⟨hthrows, fun hround => ?_⟩
  obtain ⟨e', hread, -⟩ := hround.read
  rw [hread] at hthrows
  cases hthrows

/-- An engine with one order on each side. -/
def sampleEngine : ExecutionEngine (AssocList UInt64 Order) :=
  ExecutionEngine.replay (AssocList UInt64 Order)
    [(⟨1, 0, 10, 1, 'A'.toUInt8, true⟩ : OrderRecord Rat), ⟨2, 0, 20, 2, 'A'.toUInt8, false⟩]

theorem sampleEngine_fitsSizeT : sampleEngine.FitsSizeT := by
  unfold ExecutionEngine.FitsSizeT
  decide +kernel

/-- The snapshot of the sample engine, with three bytes behind it, read into an engine
that is not empty. -/
theorem sampleEngine_round_trip :
    RoundTrips sampleEngine sampleEngine [1, 2, 3]
      (.ofList (sampleEngine.serializeState .little ++ [1, 2, 3]) 0) :=
  (snapshot_round_trip_iff sampleEngine sampleEngine sampleEngine_fitsSizeT [1, 2, 3]
    (Memory.bytes_ofList_zero _ 0)).mpr (takes_assocList .little _ _)

end TradingDesk.Exec
