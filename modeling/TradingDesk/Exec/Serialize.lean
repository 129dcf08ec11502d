import TradingDesk.Core.Cursor
import TradingDesk.Exec.Resting

/-!
# TradingDesk.Exec.Serialize

**Writing and reading snapshots** (`itch_exec.hpp`, `serialize_state` and
`deserialize_state`). The writer lists each map in its iteration order, behind its
size; the reader clears a map, makes room for as many orders as the size field
says, and inserts them as they come, so a reader that gives up has already
changed the map. Making room may throw, and so may every insertion.

Two descriptions of the bytes are compared with the loops: `encodeMap` is what the
writer writes, on every host; `entriesAt` are the orders the reader finds at an
address, whatever bytes are there.
-/

namespace TradingDesk.Exec

open TradingDesk.Core
open UnorderedMap (find? size toList clear reserve emplace emplace? emplaceAll Admits Refills)

variable {T : Type} [UnorderedMap T UInt64 Order]

/-! ### Writing -/

/-- `serialize_integer` of an integer of `w` bytes. -/
def serializeInteger (host : ByteOrder) (w : Nat) (p : Writer) (v : Nat) : Writer :=
  p.write (host.store w (host.nativeToLittle w v))

/-- The body of the loop of `serialize_order_map`. -/
def serializeOrder (host : ByteOrder) (p : Writer) (o : UInt64 × Order) : Writer :=
  let p := serializeInteger host 8 p o.1.toNat
  let p := serializeInteger host 4 p o.2.price.toNat
  serializeInteger host 4 p o.2.shares.toNat

/-- `serialize_order_map`. -/
def serializeOrderMap (host : ByteOrder) (p : Writer) (orders : T) : Writer :=
  (toList orders).foldl (serializeOrder host) (serializeInteger host 8 p (size orders))

/-- `serialized_size`, a `size_t`. -/
def serializedSize (m : T) : Nat := (8 + size m * (8 + 4 * 2)) % 2 ^ 64

namespace ExecutionEngine

/-- The buffer of `serialize_state` and the position its writer ends at. -/
def serializeStateTo (host : ByteOrder) (e : ExecutionEngine T) : Writer :=
  let n := (serializedSize e.allBuyOrders + serializedSize e.allSellOrders) % 2 ^ 64
  let p := serializeOrderMap host (Writer.start n) e.allBuyOrders
  serializeOrderMap host p e.allSellOrders

/-- `serialize_state`. -/
def serializeState (host : ByteOrder) (e : ExecutionEngine T) : List UInt8 :=
  (e.serializeStateTo host).buffer

/-- The encoded state has a size that is a `size_t`. The two tables alone take
sixteen bytes of memory for each order. -/
def FitsSizeT (e : ExecutionEngine T) : Prop :=
  16 + 16 * (size e.allBuyOrders + size e.allSellOrders) < 2 ^ 64

end ExecutionEngine

/-- The bytes of an order behind its reference. -/
def encodeOrder (o : UInt64 × Order) : List UInt8 :=
  toBytes 8 o.1.toNat ++ toBytes 4 o.2.price.toNat ++ toBytes 4 o.2.shares.toNat

/-- The bytes of a list of orders. -/
def encodeOrders (entries : List (UInt64 × Order)) : List UInt8 := entries.flatMap encodeOrder

/-- The bytes of a map with the given orders. -/
def encodeMap (entries : List (UInt64 × Order)) : List UInt8 :=
  toBytes 8 entries.length ++ encodeOrders entries

@[simp] theorem length_encodeOrder (o : UInt64 × Order) : (encodeOrder o).length = 16 := by
  simp [encodeOrder]

@[simp] theorem length_encodeOrders (entries : List (UInt64 × Order)) :
    (encodeOrders entries).length = 16 * entries.length := by
  induction entries with
  | nil => rfl
  | cons o entries ih =>
      simp only [encodeOrders, List.flatMap_cons, List.length_append, length_encodeOrder,
        List.length_cons] at ih ⊢
      omega

@[simp] theorem length_encodeMap (entries : List (UInt64 × Order)) :
    (encodeMap entries).length = 8 + 16 * entries.length := by
  simp [encodeMap]

theorem serializeInteger_wrote (host : ByteOrder) (w : Nat) {n v : Nat} {bs : List UInt8}
    (h : bs.length + w ≤ n) :
    serializeInteger host w (.wrote n bs) v = .wrote n (bs ++ toBytes w v) := by
  rw [serializeInteger, ByteOrder.store_nativeToLittle, Writer.write_wrote (by simpa using h)]

theorem foldl_serializeOrder_wrote (host : ByteOrder) {n : Nat} {bs : List UInt8}
    {entries : List (UInt64 × Order)} (h : bs.length + 16 * entries.length ≤ n) :
    entries.foldl (serializeOrder host) (.wrote n bs) = .wrote n (bs ++ encodeOrders entries) := by
  induction entries generalizing bs with
  | nil => simp [encodeOrders]
  | cons o entries ih =>
      rw [List.length_cons] at h
      have hone : serializeOrder host (.wrote n bs) o = .wrote n (bs ++ encodeOrder o) := by
        simp only [serializeOrder, encodeOrder]
        rw [serializeInteger_wrote host 8 (by omega),
          serializeInteger_wrote host 4 (by simp; omega),
          serializeInteger_wrote host 4 (by simp; omega)]
        simp only [List.append_assoc]
      rw [List.foldl_cons, hone, ih (by simp; omega), List.append_assoc]
      rfl

theorem serializeOrderMap_wrote (host : ByteOrder) {n : Nat} {bs : List UInt8} (m : T)
    (h : bs.length + (8 + 16 * size m) ≤ n) :
    serializeOrderMap host (.wrote n bs) m = .wrote n (bs ++ encodeMap (toList m)) := by
  rw [serializeOrderMap, serializeInteger_wrote host 8 (by omega),
    foldl_serializeOrder_wrote host (by rw [← UnorderedMap.size_eq]; simp; omega), encodeMap,
    List.append_assoc, UnorderedMap.size_eq]

/-- **What the writer writes.** On every host, the two maps one behind the other; the
buffer is filled exactly, and every access was within the remaining length. -/
theorem ExecutionEngine.serializeStateTo_eq (host : ByteOrder) {e : ExecutionEngine T}
    (hfit : e.FitsSizeT) :
    e.serializeStateTo host
      = .wrote (16 + 16 * (size e.allBuyOrders + size e.allSellOrders))
          (encodeMap (toList e.allBuyOrders) ++ encodeMap (toList e.allSellOrders)) := by
  have hbuy := UnorderedMap.size_eq e.allBuyOrders
  have hn : (serializedSize e.allBuyOrders + serializedSize e.allSellOrders) % 2 ^ 64
      = 16 + 16 * (size e.allBuyOrders + size e.allSellOrders) := by
    unfold FitsSizeT at hfit
    unfold serializedSize
    omega
  simp only [serializeStateTo, hn]
  rw [Writer.start_eq_wrote, serializeOrderMap_wrote host _ (by simp; omega),
    serializeOrderMap_wrote host _ (by simp; omega), List.nil_append]

/-! ### Reading -/

/-- `deserialize_integer` of an integer of `w` bytes: the bytes are taken in the order
of the host. -/
def deserializeInteger (host : ByteOrder) (mem : Memory) (w : Nat) (p : Cursor) :
    Option Nat × Cursor :=
  if p.l < w then (none, p) else (some (host.load (mem.bytes p.p w)), p.read w)

/-- The reads of one round of the loop of `deserialize_order_map`. -/
def deserializeOrder (host : ByteOrder) (mem : Memory) (p : Cursor) :
    Option (UInt64 × Order) × Cursor :=
  match deserializeInteger host mem 8 p with
  | (none, p) => (none, p)
  | (some reference, p) =>
    match deserializeInteger host mem 4 p with
    | (none, p) => (none, p)
    | (some price, p) =>
      match deserializeInteger host mem 4 p with
      | (none, p) => (none, p)
      | (some shares, p) =>
        (some (.ofNat reference, ⟨.ofNat price, .ofNat shares⟩), p)

/-- The loop of `deserialize_order_map`, with the number of rounds left. The returned value is
`none` where `emplace` throws. -/
def deserializeOrders (host : ByteOrder) (mem : Memory) :
    Nat → Cursor → T → Option Bool × Cursor × T
  | 0, p, orders => (some true, p, orders)
  | rounds + 1, p, orders =>
    match deserializeOrder host mem p with
    | (none, p) => (some false, p, orders)
    | (some (reference, o), p) =>
      match emplace? orders reference o with
      | none => (none, p, orders)
      | some orders => deserializeOrders host mem rounds p orders

/-- `deserialize_order_map`. The returned value is `none` where `reserve` or `emplace` throws. -/
def deserializeOrderMap (host : ByteOrder) (mem : Memory) (p : Cursor) (orders : T) :
    Option Bool × Cursor × T :=
  match deserializeInteger host mem 8 p with
  | (none, p) => (some false, p, orders)
  | (some s, p) =>
    match reserve (clear orders) s with
    | none => (none, p, clear orders)
    | some orders => deserializeOrders host mem s p orders

/-- `deserialize_state`. -/
def ExecutionEngine.deserializeState (host : ByteOrder) (mem : Memory) (p : Cursor)
    (e : ExecutionEngine T) : Option Bool × Cursor × ExecutionEngine T :=
  match deserializeOrderMap host mem p e.allBuyOrders with
  | (some true, p, orders) =>
    let e := e.setSide .buy orders
    let (done, p, orders) := deserializeOrderMap host mem p e.allSellOrders
    (done, p, e.setSide .sell orders)
  | (done, p, orders) => (done, p, e.setSide .buy orders)

/-- The order in memory at an address. -/
def entryAt (host : ByteOrder) (mem : Memory) (p : Nat) : UInt64 × Order :=
  (.ofNat (host.load (mem.bytes p 8)),
    ⟨.ofNat (host.load (mem.bytes (p + 8) 4)), .ofNat (host.load (mem.bytes (p + 12) 4))⟩)

/-- The orders in memory from an address on. -/
def entriesAt (host : ByteOrder) (mem : Memory) : Nat → Nat → List (UInt64 × Order)
  | _, 0 => []
  | p, n + 1 => entryAt host mem p :: entriesAt host mem (p + 16) n

theorem length_entriesAt (host : ByteOrder) (mem : Memory) (p n : Nat) :
    (entriesAt host mem p n).length = n := by
  induction n generalizing p with
  | zero => rfl
  | succ n ih => rw [entriesAt, List.length_cons, ih]

/-- One round finds the order at the pointer if all of it is there. -/
theorem deserializeOrder_eq (host : ByteOrder) (mem : Memory) (p : Cursor) :
    (deserializeOrder host mem p).1 = (if p.l < 16 then none else some (entryAt host mem p.p)) ∧
      (¬ p.l < 16 → (deserializeOrder host mem p).2 = p.skip 16) := by
  unfold deserializeOrder deserializeInteger
  by_cases h₈ : p.l < 8
  · have h₁₆ : p.l < 16 := by omega
    simp [h₈, h₁₆]
  by_cases h₁₂ : p.l - 8 < 4
  · have h₁₆ : p.l < 16 := by omega
    simp [h₈, h₁₂, h₁₆]
  by_cases h₁₆ : p.l < 16
  · have hlast : p.l - 8 - 4 < 4 := by omega
    simp [h₈, h₁₂, h₁₆, hlast]
  · have hlast : ¬ p.l - 8 - 4 < 4 := by omega
    have hread : ((p.read 8).read 4).read 4 = p.skip 16 := by
      rw [Cursor.read_read, Cursor.read_read, Cursor.read_of_le (by push_cast; omega)]
    simp [h₈, h₁₂, h₁₆, hlast, hread, entryAt]

theorem deserializeOrders_succ_of_lt (host : ByteOrder)
    (mem : Memory) (n : Nat) {p : Cursor} (m : T)
    (h : p.l < 16) : ∃ p', deserializeOrders host mem (n + 1) p m = (some false, p', m) := by
  obtain ⟨hread, -⟩ := deserializeOrder_eq host mem p
  rcases hone : deserializeOrder host mem p with ⟨r, p'⟩
  rw [hone, if_pos h] at hread
  obtain rfl : r = none := hread
  exact ⟨p', by simp only [deserializeOrders, hone]⟩

theorem deserializeOrders_succ (host : ByteOrder) (mem : Memory) (n : Nat) {p : Cursor} (m : T)
    (h : ¬ p.l < 16) :
    deserializeOrders host mem (n + 1) p m
      = match emplace? m (entryAt host mem p.p).1 (entryAt host mem p.p).2 with
        | none => (none, p.skip 16, m)
        | some m => deserializeOrders host mem n (p.skip 16) m := by
  obtain ⟨hread, hmove⟩ := deserializeOrder_eq host mem p
  rcases hone : deserializeOrder host mem p with ⟨r, p'⟩
  rw [hone, if_neg h] at hread
  rw [hone] at hmove
  obtain rfl : r = some (entryAt host mem p.p) := hread
  obtain rfl : p' = p.skip 16 := hmove h
  simp only [deserializeOrders, hone]

/-- The orders that the remaining length covers, at most `n` of them. -/
theorem entriesAt_succ_of_le (host : ByteOrder) (mem : Memory) (n : Nat) {p : Cursor}
    (h : ¬ p.l < 16) :
    entriesAt host mem p.p (min (n + 1) (p.l.toNat / 16))
      = entryAt host mem p.p
        :: entriesAt host mem (p.skip 16).p (min n ((p.skip 16).l.toNat / 16)) := by
  have hmin : min (n + 1) (p.l.toNat / 16) = min n ((p.skip 16).l.toNat / 16) + 1 := by
    rw [Cursor.skip_l]
    push_cast
    omega
  rw [hmin]
  rfl

/-- **What the reader finds.** If the table takes the orders that the remaining length covers, the
loop succeeds if they are all it is to read, and it has then moved past them; either way
it inserted them. -/
theorem deserializeOrders_of_admits {host : ByteOrder} {mem : Memory} {n : Nat} {p : Cursor} {m : T}
    (hl : 0 ≤ p.l) (hadmits : Admits m (entriesAt host mem p.p (min n (p.l.toNat / 16)))) :
    (deserializeOrders host mem n p m).1 = some (decide (16 * n ≤ p.l)) ∧
      (16 * n ≤ p.l → (deserializeOrders host mem n p m).2.1 = p.skip (16 * n)) ∧
      (deserializeOrders host mem n p m).2.2
        = emplaceAll m (entriesAt host mem p.p (min n (p.l.toNat / 16))) := by
  induction n generalizing p m with
  | zero => simp [deserializeOrders, hl, entriesAt]
  | succ n ih =>
      -- an order is there in full, or the loop ends here with what it has inserted
      by_cases h₁₆ : p.l < 16
      · obtain ⟨p', hlast⟩ := deserializeOrders_succ_of_lt host mem n m h₁₆
        have hnone : p.l.toNat / 16 = 0 := by omega
        have hmany : ¬ (16 * ((n + 1 : Nat) : Int) ≤ p.l) := by push_cast; omega
        rw [hlast, hnone, Nat.min_zero, decide_eq_false hmany]
        exact ⟨rfl, fun hall => absurd hall hmany, rfl⟩
      · rw [entriesAt_succ_of_le host mem n h₁₆] at hadmits ⊢
        have hle : (16 * (n : Int) ≤ (p.skip 16).l) ↔ 16 * ((n + 1 : Nat) : Int) ≤ p.l := by
          rw [Cursor.skip_l]
          push_cast
          omega
        obtain ⟨hfirst, hrest⟩ := UnorderedMap.admits_cons.mp hadmits
        obtain ⟨hdone, hpos, hmap⟩ := ih (by rw [Cursor.skip_l]; push_cast; omega) hrest
        rw [deserializeOrders_succ host mem n m h₁₆, UnorderedMap.emplace?_of_not_overflows hfirst]
        refine ⟨by rw [hdone, decide_eq_decide.mpr hle], fun hall => ?_, hmap⟩
        dsimp only
        rw [hpos (hle.mpr hall), Cursor.skip_skip]
        congr 1
        omega

/-- If the table does not take them, the loop throws. -/
theorem deserializeOrders_of_not_admits {host : ByteOrder} {mem : Memory} {n : Nat} {p : Cursor}
    {m : T} (hover : ¬ Admits m (entriesAt host mem p.p (min n (p.l.toNat / 16)))) :
    (deserializeOrders host mem n p m).1 = none := by
  induction n generalizing p m with
  | zero =>
      rw [Nat.zero_min, entriesAt] at hover
      exact absurd (UnorderedMap.admits_nil m) hover
  | succ n ih =>
      by_cases h₁₆ : p.l < 16
      · have hnone : p.l.toNat / 16 = 0 := by omega
        rw [hnone, Nat.min_zero, entriesAt] at hover
        exact absurd (UnorderedMap.admits_nil m) hover
      · rw [entriesAt_succ_of_le host mem n h₁₆] at hover
        rw [deserializeOrders_succ host mem n m h₁₆]
        cases hfirst : UnorderedMap.overflows m (entryAt host mem p.p).1 with
        | true => rw [UnorderedMap.emplace?_of_overflows hfirst]
        | false =>
            rw [UnorderedMap.emplace?_of_not_overflows hfirst]
            exact ih fun hadmits => hover (UnorderedMap.admits_cons.mpr ⟨hfirst, hadmits⟩)

/-! ### The orders behind a size field -/

/-- The size field at the pointer. -/
def storedCount (host : ByteOrder) (mem : Memory) (p : Cursor) : Nat := host.load (mem.bytes p.p 8)

/-- The orders behind the size field that are there in full. -/
def storedOrders (host : ByteOrder) (mem : Memory) (p : Cursor) : List (UInt64 × Order) :=
  entriesAt host mem (p.p + 8) (min (storedCount host mem p) ((p.l - 8).toNat / 16))

theorem deserializeOrderMap_of_lt {p : Cursor} (h : p.l < 8)
    (host : ByteOrder) (mem : Memory) (m : T) :
    deserializeOrderMap host mem p m = (some false, p, m) := by
  rw [deserializeOrderMap, deserializeInteger, if_pos (by exact_mod_cast h)]

theorem deserializeInteger_count {p : Cursor} (h : 8 ≤ p.l) (host : ByteOrder) (mem : Memory) :
    deserializeInteger host mem 8 p = (some (storedCount host mem p), p.skip 8) := by
  rw [deserializeInteger, if_neg (by omega), Cursor.read_of_le (by omega)]
  rfl

/-- The table, once it is emptied and made as large as the size field says, takes the orders behind
the size field. -/
def TakesOrders (host : ByteOrder) (mem : Memory) (p : Cursor) (m : T) : Prop :=
  Refills m (storedCount host mem p) (storedOrders host mem p)

/-- The loop behind the size field. -/
theorem deserializeOrderMap_eq {p : Cursor} (h : 8 ≤ p.l)
    (host : ByteOrder) (mem : Memory) (m : T) :
    deserializeOrderMap host mem p m
      = match reserve (clear m) (storedCount host mem p) with
        | none => (none, p.skip 8, clear m)
        | some room => deserializeOrders host mem (storedCount host mem p) (p.skip 8) room := by
  simp only [deserializeOrderMap, deserializeInteger_count h]

/-- A reader that does not throw had room for the orders. -/
theorem takesOrders_of_some {p p' : Cursor} (h : 8 ≤ p.l) {host : ByteOrder} {mem : Memory}
    {m m' : T} {done : Bool} (hread : deserializeOrderMap host mem p m = (some done, p', m')) :
    (reserve (clear m) (storedCount host mem p)).isSome ∧ TakesOrders host mem p m := by
  rw [deserializeOrderMap_eq h] at hread
  cases hroom : reserve (clear m) (storedCount host mem p) with
  | none => simp [hroom] at hread
  | some room =>
      simp only [hroom] at hread
      refine ⟨rfl, fun room' hroom' => ?_⟩
      obtain rfl := Option.some.inj (hroom.symm.trans hroom')
      by_contra hover
      have hthrows := deserializeOrders_of_not_admits (p := p.skip 8)
        (n := storedCount host mem p) hover
      rw [hread] at hthrows
      cases hthrows

theorem deserializeOrderMap_of_not_takes {p : Cursor} (h : 8 ≤ p.l) {host : ByteOrder}
    {mem : Memory} {m : T} (hover : ¬ TakesOrders host mem p m) :
    (deserializeOrderMap host mem p m).1 = none := by
  rcases hread : deserializeOrderMap host mem p m with ⟨_ | done, p', m'⟩
  · rfl
  · exact absurd (takesOrders_of_some h hread).2 hover

/-- What a reader that does not throw makes of the table: it is emptied and filled with the orders
behind the size field. -/
theorem deserializeOrderMap_filled {p p' : Cursor} (h : 8 ≤ p.l) {host : ByteOrder} {mem : Memory}
    {m m' : T} {done : Bool} (hread : deserializeOrderMap host mem p m = (some done, p', m')) :
    (∃ room, reserve (clear m) (storedCount host mem p) = some room ∧
        m' = emplaceAll room (storedOrders host mem p)) ∧
      done = decide (8 + 16 * (storedCount host mem p : Int) ≤ p.l) ∧
      (done = true → p' = p.skip (8 + 16 * storedCount host mem p)) := by
  obtain ⟨hsome, htakes⟩ := takesOrders_of_some h hread
  obtain ⟨room, hroom⟩ := Option.isSome_iff_exists.mp hsome
  simp only [deserializeOrderMap_eq h, hroom] at hread
  obtain ⟨hdone, hpos, hmap⟩ := deserializeOrders_of_admits (p := p.skip 8)
    (n := storedCount host mem p) (by rw [Cursor.skip_l]; omega) (htakes room hroom)
  simp only [hread] at hdone hpos hmap
  have hcovers : (16 * (storedCount host mem p : Int) ≤ (p.skip 8).l)
      ↔ 8 + 16 * (storedCount host mem p : Int) ≤ p.l := by
    rw [Cursor.skip_l]
    omega
  obtain rfl := Option.some.inj hdone
  refine ⟨⟨room, hroom, hmap⟩, decide_eq_decide.mpr hcovers, fun hall => ?_⟩
  rw [hpos (of_decide_eq_true hall), Cursor.skip_skip]

/-- Behind the size field, the map holds what is there, whatever it held before. -/
theorem deserializeOrderMap_of_le {p p' : Cursor} (h : 8 ≤ p.l) {host : ByteOrder} {mem : Memory}
    {m m' : T} {done : Bool} (hread : deserializeOrderMap host mem p m = (some done, p', m')) :
    (find? m' = fun k => (storedOrders host mem p).lookup k) ∧
      done = decide (8 + 16 * (storedCount host mem p : Int) ≤ p.l) ∧
      (done = true → p' = p.skip (8 + 16 * storedCount host mem p)) := by
  obtain ⟨⟨room, hroom, rfl⟩, hdone⟩ := deserializeOrderMap_filled h hread
  refine ⟨funext fun k => ?_, hdone⟩
  rw [UnorderedMap.find?_emplaceAll, UnorderedMap.find?_reserve hroom, UnorderedMap.find?_clear,
    Option.none_or]

/-- With room for them, the orders behind the size field are read. -/
theorem deserializeOrderMap_of_takes {host : ByteOrder} {mem : Memory} {p : Cursor} {m : T}
    (h : 8 ≤ p.l) (hroom : (reserve (clear m) (storedCount host mem p)).isSome)
    (htakes : TakesOrders host mem p m) :
    ∃ done p' m', deserializeOrderMap host mem p m = (some done, p', m') := by
  obtain ⟨room, hsome⟩ := Option.isSome_iff_exists.mp hroom
  rw [deserializeOrderMap_eq h, hsome]
  obtain ⟨hdone, -, -⟩ := deserializeOrders_of_admits (p := p.skip 8)
    (n := storedCount host mem p) (by rw [Cursor.skip_l]; omega) (htakes room hsome)
  exact ⟨_, _, _, Prod.ext hdone rfl⟩

/-- The reader of one map succeeds where all the orders are there and there is room for
them. -/
theorem deserializeOrderMap_of_covers {host : ByteOrder} {mem : Memory} {p : Cursor} {m : T}
    (hl : 8 + 16 * (storedCount host mem p : Int) ≤ p.l)
    (hroom : (reserve (clear m) (storedCount host mem p)).isSome)
    (htakes : TakesOrders host mem p m) :
    ∃ m', deserializeOrderMap host mem p m
        = (some true, p.skip (8 + 16 * storedCount host mem p), m') ∧
      find? m' = fun k => (storedOrders host mem p).lookup k := by
  obtain ⟨done, p', m', hread⟩ := deserializeOrderMap_of_takes (by omega) hroom htakes
  obtain ⟨hmap, hdone, hpos⟩ := deserializeOrderMap_of_le (by omega) hread
  rw [decide_eq_true hl] at hdone
  exact ⟨m', by rw [hread, hdone, hpos hdone], hmap⟩

end TradingDesk.Exec
