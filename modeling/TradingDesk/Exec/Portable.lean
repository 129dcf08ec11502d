import TradingDesk.Exec.Capacity

/-!
# TradingDesk.Exec.Portable

**Which host can read a snapshot.** The bytes are the same whatever host wrote them:
the writer converts every integer to little-endian. The reader converts nothing, so a
big-endian host reads every count, reference, price and share count byte-swapped. It
gets the saved orders back exactly when the swapping leaves the two maps as they are.

The argument that it gets them back in no other case counts: the reader puts at most
as many orders into a map as it found the map's size field to say, so neither size may
read as less than it is, and both together may not read as more than the buffer holds.
-/

namespace TradingDesk.Exec

open TradingDesk.Core
open UnorderedMap (find? size toList)
open ByteOrder (byteSwap byteSwap_byteSwap byteSwap_lt)

/-! ### Byte-swapped orders -/

/-- The reference a big-endian host reads. -/
def swapReference (reference : UInt64) : UInt64 := .ofNat (byteSwap 8 reference.toNat)

/-- The order a big-endian host reads. -/
def swapOrder (o : Order) : Order :=
  ⟨.ofNat (byteSwap 4 o.price.toNat), .ofNat (byteSwap 4 o.shares.toNat)⟩

theorem swapReference_involutive : Function.Involutive swapReference := by
  intro reference
  have hlt : byteSwap 8 reference.toNat < 2 ^ 64 := byteSwap_lt 8 _
  rw [swapReference, swapReference, UInt64.toNat_ofNat_of_lt' hlt,
    byteSwap_byteSwap reference.toNat_lt, UInt64.ofNat_toNat]

variable {T : Type} [UnorderedMap T UInt64 Order]

/-- A map that is its own byte-swapped image. -/
structure SwapInvariant (m : T) : Prop where
  /-- The size reads the same in both byte orders. -/
  count : byteSwap 8 (size m) = size m
  /-- Under a swapped reference is the swapped order. -/
  contents (reference : UInt64) :
    find? m (swapReference reference) = (find? m reference).map swapOrder

theorem lookup_reread_big (m : T) (reference : UInt64) :
    ((toList m).map (reread .big)).lookup (swapReference reference)
      = (find? m reference).map swapOrder := by
  rw [← UnorderedMap.lookup_toList m reference]
  exact UnorderedMap.lookup_map swapReference_involutive.injective swapOrder (toList m) reference

theorem readsBack_big_iff {m : T} : ReadsBack .big m ↔ SwapInvariant m := by
  constructor
  · intro h
    refine ⟨h.count, ?_⟩
    intro reference
    rw [← h.contents, lookup_reread_big]
  · intro h
    refine ⟨h.count, ?_⟩
    intro reference
    obtain ⟨swapped, rfl⟩ := swapReference_involutive.surjective reference
    rw [lookup_reread_big, h.contents]

theorem readsBack_iff {host : ByteOrder} {m : T} :
    ReadsBack host m ↔ host = .little ∨ SwapInvariant m := by
  cases host with
  | little => exact iff_of_true (readsBack_little m) (Or.inl rfl)
  | big => rw [readsBack_big_iff, or_iff_right (by decide)]

/-! ### What the sizes can read as -/

/-- A map holds at most as many orders as the size field says. -/
theorem size_le_storedCount {host : ByteOrder} {mem : Memory} {p : Cursor} {m : T}
    (h : find? m = fun k => (storedOrders host mem p).lookup k) :
    size m ≤ storedCount host mem p := by
  have hkeys : ∀ k, (find? m k).isSome → k ∈ (storedOrders host mem p).map Prod.fst := by
    intro k hk
    rw [h] at hk
    exact UnorderedMap.mem_keys_of_lookup hk
  have hle := size_le_of_keys hkeys
  rw [List.length_map, storedOrders, length_entriesAt] at hle
  exact hle.trans (min_le_left _ _)

/-- A map whose size reads as its size was read order by order. -/
theorem readsBack_of_count {host : ByteOrder} {mem : Memory} {p : Cursor} {orders : T}
    (hsize : size orders < 2 ^ 64)
    (hmem : mem.bytes p.p (8 + 16 * size orders) = encodeMap (toList orders))
    (hl : (8 + 16 * size orders : Nat) ≤ p.l) (hcount : storedCount host mem p = size orders)
    (hread : find? orders = fun k => (storedOrders host mem p).lookup k) :
    ReadsBack host orders := by
  rw [UnorderedMap.size_eq] at hsize hmem hl hcount
  constructor
  · rw [UnorderedMap.size_eq, ← storedCount_encodeMap host hsize hmem, hcount]
  · intro reference
    rw [hread, storedOrders_encodeMap hcount hl hmem]

namespace ExecutionEngine

variable {e receiver : ExecutionEngine T}

/-- A host that gets the saved orders back reads both maps back. -/
theorem readsBack_of_deserializeState {writer host : ByteOrder} {mem : Memory} (hfit : e.FitsSizeT)
    (hmem : mem.bytes 0 (e.serializeState writer).length = e.serializeState writer)
    {p : Cursor} {e' : ExecutionEngine T}
    (hread : receiver.deserializeState host mem (.start (e.serializeState writer).length)
      = (some true, p, e')) (hsame : e'.SameOrders e) :
    ReadsBack host e.allBuyOrders ∧ ReadsBack host e.allSellOrders := by
  have hfit' : 16 + 16 * (size e.allBuyOrders + size e.allSellOrders) < 2 ^ 64 := hfit
  have hlen := length_serializeState writer hfit
  rw [serializeState_eq writer hfit] at hmem
  obtain ⟨hmemBuy, hmemSell⟩ := Memory.bytes_eq_append hmem
  rw [length_encodeMap, ← UnorderedMap.size_eq] at hmemBuy hmemSell
  rw [length_encodeMap, ← UnorderedMap.size_eq] at hmemSell
  set start : Cursor := .start (e.serializeState writer).length with hstart
  have hl : start.l = 16 + 16 * ((size e.allBuyOrders : Int) + size e.allSellOrders) := by
    rw [hstart, Cursor.start, hlen]
    push_cast
    rfl
  rw [deserializeState] at hread
  rcases hbuy : deserializeOrderMap host mem start receiver.allBuyOrders with ⟨done, p₁, buys⟩
  obtain rfl : done = some true := by
    rcases done with _ | _ | _
    · simp [hbuy] at hread
    · simp [hbuy] at hread
    · rfl
  obtain ⟨hbuys, hdoneBuy, hpos⟩ := deserializeOrderMap_of_le (by omega) hbuy
  have hcoversBuy := of_decide_eq_true hdoneBuy.symm
  obtain rfl := hpos rfl
  simp only [hbuy] at hread
  rcases hsell : deserializeOrderMap host mem (start.skip (8 + 16 * storedCount host mem start))
    (receiver.setSide .buy buys).allSellOrders with ⟨done, p₂, sells⟩
  rw [hsell] at hread
  cases hread
  have h₈ : 8 ≤ (start.skip (8 + 16 * storedCount host mem start)).l := by
    by_contra hlt
    rw [deserializeOrderMap_of_lt (by omega)] at hsell
    cases hsell
  obtain ⟨hsells, hdoneSell, -⟩ := deserializeOrderMap_of_le h₈ hsell
  have hcoversSell := of_decide_eq_true hdoneSell.symm
  rw [Cursor.skip_l] at hcoversSell
  push_cast at hcoversSell
  -- neither size reads as less, and both together not as more
  have hleBuy := size_le_storedCount (m := e.allBuyOrders) (hsame.1.symm.trans hbuys)
  have hleSell := size_le_storedCount (m := e.allSellOrders) (hsame.2.symm.trans hsells)
  have hcountBuy : storedCount host mem start = size e.allBuyOrders := by omega
  rw [hcountBuy] at hsells hleSell hcoversSell
  have hcountSell : storedCount host mem (start.skip (8 + 16 * size e.allBuyOrders))
      = size e.allSellOrders := by
    omega
  constructor
  · exact readsBack_of_count (by omega) hmemBuy (by push_cast; omega) hcountBuy
      (hsame.1.symm.trans hbuys)
  · exact readsBack_of_count (by omega) hmemSell (by rw [Cursor.skip_l]; push_cast; omega)
      hcountSell (hsame.2.symm.trans hsells)

end ExecutionEngine

/-! ### Portability -/

/-- **Where snapshots are portable to.** Whatever host wrote the state of an engine, a
host reads the same orders back if and only if it is little-endian, or both maps are
their own byte-swapped images, and the tables of the receiver take the orders in the order in
which it reads them. -/
theorem portable_iff (writer host : ByteOrder) (e receiver : ExecutionEngine T)
    (hfit : e.FitsSizeT) {mem : Memory}
    (hmem : mem.bytes 0 (e.serializeState writer).length = e.serializeState writer) :
    (∃ p e', receiver.deserializeState host mem (.start (e.serializeState writer).length)
          = (some true, p, e') ∧ e'.SameOrders e) ↔
      (host = .little ∨ SwapInvariant e.allBuyOrders ∧ SwapInvariant e.allSellOrders) ∧
        receiver.Takes host e := by
  rw [or_and_left, ← readsBack_iff, ← readsBack_iff]
  constructor
  · intro hread'
    obtain ⟨p, e', hread, hsame⟩ := hread'
    have hback := ExecutionEngine.readsBack_of_deserializeState hfit hmem hread hsame
    exact ⟨hback, ExecutionEngine.takes_of_deserializeState hfit hback.1 hback.2 hmem le_rfl hread⟩
  · intro hback
    obtain ⟨⟨hbuy, hsell⟩, htakes⟩ := hback
    obtain ⟨hread, hsame⟩ := ExecutionEngine.deserializeState_of_readsBack hfit hbuy hsell
      (p := .start (e.serializeState writer).length) hmem le_rfl htakes
    exact ⟨_, _, hread, hsame⟩

/-- A snapshot written on a big-endian host, read on a little-endian one. -/
theorem big_to_little_portable :
    ∃ p e', sampleEngine.deserializeState .little
          (.ofList (sampleEngine.serializeState .big) 0)
          (.start (sampleEngine.serializeState .big).length) = (some true, p, e') ∧
      e'.SameOrders sampleEngine :=
  (portable_iff .big .little sampleEngine sampleEngine sampleEngine_fitsSizeT
    (Memory.bytes_ofList_zero _ 0)).mpr ⟨Or.inl rfl, takes_assocList .little _ _⟩

/-- One order on each side, written on a little-endian host: a big-endian host takes the
one of the first size field for 2^56 orders. -/
theorem little_to_big_not_portable :
    ¬ ∃ p e', sampleEngine.deserializeState .big
          (.ofList (sampleEngine.serializeState .little) 0)
          (.start (sampleEngine.serializeState .little).length) = (some true, p, e') ∧
      e'.SameOrders sampleEngine := by
  intro hportable
  obtain ⟨p, e', hread, hsame⟩ := hportable
  have hmem := Memory.bytes_ofList_zero (sampleEngine.serializeState .little) 0
  have hcount := (ExecutionEngine.readsBack_of_deserializeState sampleEngine_fitsSizeT hmem hread
    hsame).1.count
  have hsize : size sampleEngine.allBuyOrders = 1 := by decide +kernel
  rw [hsize] at hcount
  exact absurd hcount (by decide)

end TradingDesk.Exec
