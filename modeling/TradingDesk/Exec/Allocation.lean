import TradingDesk.Exec.Grammar
import TradingDesk.Exec.RobinHood

/-!
# TradingDesk.Exec.Allocation

**The room that a count asks for.** The reader of a map makes room for as many orders as
the size field says before it has seen any of them, so it is the bytes of the field, not the
size of the buffer, that decide how large a table is made.
`allocates_within_buffer_iff` says for which buffers that comes to the same: those that
do not end between the orders of a map, nor behind a buying map that the table does not take.
-/

namespace TradingDesk.Exec

open TradingDesk.Core
open UnorderedMap (find? clear reserve)

/-! ### Buffers that are cut off, and where

A host takes the eight bytes of a size field for a number in its own order. -/

/-- The bytes are a size field and as many orders of sixteen bytes as it says. -/
def IsMap (host : ByteOrder) (bs : List UInt8) : Prop :=
  8 ≤ bs.length ∧ bs.length = 8 + 16 * host.load (bs.take 8)

/-- Two maps, and anything behind them. -/
def HoldsBothMaps (host : ByteOrder) (bs : List UInt8) : Prop :=
  ∃ buys sells rest, bs = buys ++ (sells ++ rest) ∧ IsMap host buys ∧ IsMap host sells

/-- The bytes end before the size field of the first or of the second map is complete. -/
def EndsInSizeField (host : ByteOrder) (bs : List UInt8) : Prop :=
  bs.length < 8 ∨ ∃ buys rest, bs = buys ++ rest ∧ IsMap host buys ∧ rest.length < 8

/-- The bytes under a cursor are a map and a rest exactly if all the orders of the map
are there. The map and the rest are where the size field says. -/
theorem exists_isMap_iff {host : ByteOrder} {mem : Memory} {p : Nat} {n : Nat}
    {P : List UInt8 → Prop} :
    (∃ map rest, mem.bytes p n = map ++ rest ∧ IsMap host map ∧ P rest) ↔
      8 + 16 * host.load (mem.bytes p 8) ≤ n ∧
        P (mem.bytes (p + (8 + 16 * host.load (mem.bytes p 8)))
          (n - (8 + 16 * host.load (mem.bytes p 8)))) := by
  constructor
  · rintro ⟨map, rest, hbytes, ⟨h8, hlen⟩, hP⟩
    obtain ⟨hmap, hrest⟩ := Memory.bytes_eq_append hbytes
    have hn : n = map.length + rest.length := by
      have := congrArg List.length hbytes
      simpa using this
    have htake : map.take 8 = mem.bytes p 8 := by
      have hpiece := Memory.take_drop_bytes mem p (i := 0) (w := 8) (n := map.length) (by omega)
      rwa [List.drop_zero, hmap] at hpiece
    rw [htake] at hlen
    rw [← hlen, hn, Nat.add_sub_cancel_left, hrest]
    exact ⟨Nat.le_add_right _ _, hP⟩
  · rintro ⟨hle, hP⟩
    refine ⟨mem.bytes p (8 + 16 * host.load (mem.bytes p 8)), _, ?_, ?_, hP⟩
    · rw [← Memory.bytes_add, Nat.add_sub_cancel' hle]
    · have hpiece := Memory.take_drop_bytes mem p (i := 0) (w := 8)
        (n := 8 + 16 * host.load (mem.bytes p 8)) (by omega)
      rw [List.drop_zero] at hpiece
      rw [IsMap, hpiece, Memory.length_bytes]
      exact ⟨Nat.le_add_right _ _, rfl⟩

/-- All the orders that the size field at the cursor speaks of are there. -/
def Covers (host : ByteOrder) (mem : Memory) (p : Cursor) : Prop :=
  8 + 16 * (storedCount host mem p : Int) ≤ p.l

/-- Behind the map at the cursor. -/
def behindMap (host : ByteOrder) (mem : Memory) (p : Cursor) : Cursor :=
  p.skip (8 + 16 * storedCount host mem p)

section

variable {host : ByteOrder} {bs : List UInt8} {mem : Memory}

theorem holdsBothMaps_iff (hmem : mem.bytes 0 bs.length = bs) :
    HoldsBothMaps host bs ↔ Covers host mem (.start bs.length) ∧
      Covers host mem (behindMap host mem (.start bs.length)) := by
  have hsplit : HoldsBothMaps host bs ↔ ∃ buys tail, mem.bytes 0 bs.length = buys ++ tail ∧
      IsMap host buys ∧ ∃ sells rest, tail = sells ++ rest ∧ IsMap host sells ∧ True := by
    rw [hmem]
    constructor
    · rintro ⟨buys, sells, rest, hbytes, hbuy, hsell⟩
      exact ⟨buys, _, hbytes, hbuy, sells, rest, rfl, hsell, trivial⟩
    · rintro ⟨buys, _, hbytes, hbuy, sells, rest, rfl, hsell, -⟩
      exact ⟨buys, sells, rest, hbytes, hbuy, hsell⟩
  rw [hsplit, exists_isMap_iff, exists_isMap_iff, and_true]
  simp only [Covers, behindMap, storedCount, Cursor.skip_p, Cursor.skip_l, Cursor.start]
  refine and_congr (by omega) ?_
  omega

theorem endsInSizeField_iff (hmem : mem.bytes 0 bs.length = bs) :
    EndsInSizeField host bs ↔ (Cursor.start bs.length).l < 8 ∨ Covers host mem (.start bs.length) ∧
      (behindMap host mem (.start bs.length)).l < 8 := by
  have hsplit := @exists_isMap_iff host mem 0 bs.length fun rest => rest.length < 8
  rw [hmem] at hsplit
  rw [EndsInSizeField, hsplit, Memory.length_bytes]
  simp only [Covers, behindMap, storedCount, Cursor.skip_l, Cursor.start]
  omega

end

/-! ### Calls of `reserve` -/

/-- The call of `reserve` in the reader of a map, if it comes to it: the count asked for, and
how many bytes are still unread. -/
def reserveCall (host : ByteOrder) (mem : Memory) (p : Cursor) : List (Nat × Int) :=
  match deserializeInteger host mem 8 p with
  | (none, _) => []
  | (some s, p) => [(s, p.l)]

theorem reserveCall_eq (host : ByteOrder) (mem : Memory) (p : Cursor) :
    reserveCall host mem p = if p.l < 8 then [] else [(storedCount host mem p, p.l - 8)] := by
  rw [reserveCall]
  by_cases h : p.l < 8
  · rw [deserializeInteger, if_pos (by exact_mod_cast h), if_pos h]
  · rw [deserializeInteger_count (by omega), if_neg h]
    rfl

/-- A count asks for no more than the bytes unread can hold. -/
def WithinUnread (call : Nat × Int) : Prop := 16 * (call.1 : Int) ≤ call.2

theorem reserveCall_within {host : ByteOrder} {mem : Memory} {p : Cursor} :
    (∀ call ∈ reserveCall host mem p, WithinUnread call) ↔ p.l < 8 ∨ Covers host mem p := by
  rw [reserveCall_eq, Covers]
  by_cases h : p.l < 8
  · simp [h]
  · simp only [h, if_false, List.mem_singleton, forall_eq, WithinUnread, false_or]
    omega

variable {T : Type} [UnorderedMap T UInt64 Order]

namespace ExecutionEngine

/-- The calls of `reserve` in the reader of a state. -/
def reserveCalls (host : ByteOrder) (mem : Memory) (p : Cursor) (e : ExecutionEngine T) :
    List (Nat × Int) :=
  reserveCall host mem p ++
    match deserializeOrderMap host mem p e.allBuyOrders with
    | (some true, p, _) => reserveCall host mem p
    | _ => []

end ExecutionEngine

/-- Reading the bytes makes room for no more orders than could be there, and answers `false`, with
no exception, to bytes that do not hold both maps. -/
structure AllocatesWithinBuffer (host : ByteOrder) (bs : List UInt8) (mem : Memory)
    (e : ExecutionEngine T) : Prop where
  calls : ∀ call ∈ e.reserveCalls host mem (.start bs.length), WithinUnread call
  malformed : ¬ HoldsBothMaps host bs →
    (e.deserializeState host mem (.start bs.length)).1 = some false

namespace ExecutionEngine

/-- Cut off in the first size field: no call, and `false`. -/
theorem read_of_lt (host : ByteOrder) (mem : Memory) (e : ExecutionEngine T) {p : Cursor}
    (h : p.l < 8) :
    e.reserveCalls host mem p = [] ∧ (e.deserializeState host mem p).1 = some false := by
  have hread := deserializeOrderMap_of_lt h host mem e.allBuyOrders
  constructor
  · rw [reserveCalls, hread, reserveCall_eq, if_pos h]
    rfl
  · simp only [deserializeState, hread]

section

variable {host : ByteOrder} {mem : Memory} {e : ExecutionEngine T} {p : Cursor}

/-- Past a complete first map, it is the second one that is left. -/
theorem read_of_covers (hl : Covers host mem p)
    (hroom : (reserve (clear e.allBuyOrders) (storedCount host mem p)).isSome)
    (htakes : TakesOrders host mem p e.allBuyOrders) :
    e.reserveCalls host mem p = reserveCall host mem p ++
      reserveCall host mem (behindMap host mem p) ∧
      (e.deserializeState host mem p).1
        = (deserializeOrderMap host mem (behindMap host mem p) e.allSellOrders).1 := by
  obtain ⟨buys, hread, -⟩ := deserializeOrderMap_of_covers hl hroom htakes
  constructor
  · rw [reserveCalls, hread]
    rfl
  · simp only [deserializeState, hread]
    rfl

/-- The exception of a first map that the table does not take. -/
theorem read_of_not_takes (h : 8 ≤ p.l) (hover : ¬ TakesOrders host mem p e.allBuyOrders) :
    e.reserveCalls host mem p = reserveCall host mem p ∧
      (e.deserializeState host mem p).1 = none := by
  have hthrows := deserializeOrderMap_of_not_takes h hover
  rcases hread : deserializeOrderMap host mem p e.allBuyOrders with ⟨done, p', buys⟩
  rw [hread] at hthrows
  obtain rfl : done = none := hthrows
  constructor
  · rw [reserveCalls, hread]
    exact List.append_nil _
  · simp only [deserializeState, hread]

end

end ExecutionEngine

/-- Past a complete first map: the calls are those of both maps. -/
theorem reserveCalls_within {host : ByteOrder} {mem : Memory} {e : ExecutionEngine T} {p : Cursor}
    (hcovers : Covers host mem p)
    (hroom : (reserve (clear e.allBuyOrders) (storedCount host mem p)).isSome)
    (htakes : TakesOrders host mem p e.allBuyOrders) :
    (∀ call ∈ e.reserveCalls host mem p, WithinUnread call) ↔
      (behindMap host mem p).l < 8 ∨ Covers host mem (behindMap host mem p) := by
  rw [(ExecutionEngine.read_of_covers hcovers hroom htakes).1, ← reserveCall_within]
  refine ⟨fun h call hcall => h call (List.mem_append_right _ hcall), fun h call hcall => ?_⟩
  rcases List.mem_append.mp hcall with hcall | hcall
  · exact reserveCall_within.mpr (Or.inr hcovers) call hcall
  · exact h call hcall

section

variable {host : ByteOrder} {bs : List UInt8} {mem : Memory} {e : ExecutionEngine T}

/-- Cut off in the first size field. -/
theorem allocatesWithinBuffer_of_lt (h : (Cursor.start bs.length).l < 8) :
    AllocatesWithinBuffer host bs mem e := by
  obtain ⟨hcalls, hread⟩ := ExecutionEngine.read_of_lt host mem e h
  refine ⟨?_, fun _ => hread⟩
  rw [hcalls]
  exact fun _ hcall => absurd hcall List.not_mem_nil

/-- Cut off in the second one, behind a map that the table takes. -/
theorem allocatesWithinBuffer_of_behind_lt (hcovers : Covers host mem (.start bs.length))
    (hroom : (reserve (clear e.allBuyOrders) (storedCount host mem (.start bs.length))).isSome)
    (htakes : TakesOrders host mem (.start bs.length) e.allBuyOrders)
    (hlt : (behindMap host mem (.start bs.length)).l < 8) :
    AllocatesWithinBuffer host bs mem e := by
  refine ⟨(reserveCalls_within hcovers hroom htakes).mpr (Or.inl hlt), fun _ => ?_⟩
  rw [(ExecutionEngine.read_of_covers hcovers hroom htakes).2, deserializeOrderMap_of_lt hlt]

/-- Both maps are complete, so the bytes are not malformed, whatever the tables take of them. -/
theorem allocatesWithinBuffer_of_both (hmem : mem.bytes 0 bs.length = bs)
    (hcovers : Covers host mem (.start bs.length))
    (hcovers' : Covers host mem (behindMap host mem (.start bs.length)))
    (hroom : (reserve (clear e.allBuyOrders) (storedCount host mem (.start bs.length))).isSome) :
    AllocatesWithinBuffer host bs mem e := by
  refine ⟨?_, fun hnot => absurd ((holdsBothMaps_iff hmem).mpr ⟨hcovers, hcovers'⟩) hnot⟩
  by_cases htakes : TakesOrders host mem (.start bs.length) e.allBuyOrders
  · exact (reserveCalls_within hcovers hroom htakes).mpr (Or.inr hcovers')
  · have h₈ : 8 ≤ (Cursor.start bs.length).l := by
      rw [Covers] at hcovers
      omega
    rw [(ExecutionEngine.read_of_not_takes h₈ htakes).1]
    exact reserveCall_within.mpr (Or.inr hcovers)

end

/-- **When a count cannot drive allocation.** For a buffer of any bytes, on any host, and an
engine whose emptied tables have room for what fits into the buffer: every call of `reserve`
asks for no more than the unread bytes can hold, and malformed bytes are answered with
`false` and no exception, if and only if the bytes hold both maps, or end in a size field and
the buying table takes the map in front of it. -/
theorem allocates_within_buffer_iff (host : ByteOrder) {bs : List UInt8} {mem : Memory}
    (hmem : mem.bytes 0 bs.length = bs) (e : ExecutionEngine T)
    (hroom : ∀ (m : T) n, 16 * n ≤ bs.length → (reserve (clear m) n).isSome) :
    AllocatesWithinBuffer host bs mem e ↔ HoldsBothMaps host bs ∨ EndsInSizeField host bs ∧
      (8 ≤ bs.length → TakesOrders host mem (.start bs.length) e.allBuyOrders) := by
  have hstart : (Cursor.start bs.length).l = bs.length := rfl
  have hfits : Covers host mem (.start bs.length) →
      (reserve (clear e.allBuyOrders) (storedCount host mem (.start bs.length))).isSome := by
    intro hcovers
    rw [Covers, hstart] at hcovers
    exact hroom _ _ (by omega)
  rw [holdsBothMaps_iff hmem, endsInSizeField_iff hmem]
  constructor
  · intro halloc
    have hfirst : ∀ call ∈ reserveCall host mem (.start bs.length), WithinUnread call :=
      fun call hcall => halloc.calls call (List.mem_append_left _ hcall)
    rcases reserveCall_within.mp hfirst with hlt | hcovers
    · exact Or.inr ⟨Or.inl hlt, fun h₈ => absurd hlt (by rw [hstart]; omega)⟩
    by_cases htakes : TakesOrders host mem (.start bs.length) e.allBuyOrders
    · -- the first map is read, so there is a second call, or no second size field
      rcases (reserveCalls_within hcovers (hfits hcovers) htakes).mp halloc.calls with
        hlt | hcovers'
      · exact Or.inr ⟨Or.inr ⟨hcovers, hlt⟩, fun _ => htakes⟩
      · exact Or.inl ⟨hcovers, hcovers'⟩
    · -- the reader throws, so the bytes are not malformed
      have h₈ : 8 ≤ (Cursor.start bs.length).l := by
        rw [Covers] at hcovers
        omega
      refine Or.inl ((holdsBothMaps_iff hmem).mp (by_contra fun hnot => ?_))
      have hfalse := halloc.malformed hnot
      rw [(ExecutionEngine.read_of_not_takes h₈ htakes).2] at hfalse
      cases hfalse
  · rintro (⟨hcovers, hcovers'⟩ | ⟨hlt | ⟨hcovers, hlt⟩, htakes⟩)
    · exact allocatesWithinBuffer_of_both hmem hcovers hcovers' (hfits hcovers)
    · exact allocatesWithinBuffer_of_lt hlt
    · have h₈ : 8 ≤ bs.length := by
        rw [Covers, hstart] at hcovers
        omega
      exact allocatesWithinBuffer_of_behind_lt hcovers (hfits hcovers) (htakes h₈) hlt

/-- One buying order and no selling orders. -/
theorem one_order_allocates_within_buffer :
    let bs := encodeMap [(1, ⟨1000, 10⟩)] ++ encodeMap []
    AllocatesWithinBuffer .little bs (.ofList bs 0)
      (ExecutionEngine.empty : ExecutionEngine (RobinHood.Table Order)) := by
  intro bs
  have hlen : bs.length = 32 := by decide
  refine (allocates_within_buffer_iff .little (Memory.bytes_ofList_zero bs 0) _ ?_).mpr (Or.inl ?_)
  · intro m n hn
    exact m.reserve_clear_isSome (by omega)
  · exact ⟨encodeMap [(1, ⟨1000, 10⟩)], encodeMap [], [], by decide, by unfold IsMap; decide,
      by unfold IsMap; decide⟩

/-- A size field of eight bytes 255 and nothing behind it: 2^64 - 1 orders are asked for where
no byte is left, and the table throws. -/
theorem huge_count_throws :
    let bs : List UInt8 := List.replicate 8 255
    let e : ExecutionEngine (RobinHood.Table Order) := .empty
    e.reserveCalls .little (.ofList bs 0) (.start 8) = [(18446744073709551615, 0)] ∧
      (e.deserializeState .little (.ofList bs 0) (.start 8)).1 = none ∧
      ¬ AllocatesWithinBuffer .little bs (.ofList bs 0) e := by
  intro bs e
  have hcalls : e.reserveCalls .little (.ofList bs 0) (.start 8) = [(18446744073709551615, 0)] := by
    decide +kernel
  refine ⟨hcalls, by decide +kernel, fun halloc => ?_⟩
  have hwithin := halloc.calls (18446744073709551615, 0) (hcalls ▸ List.mem_singleton_self _)
  rw [WithinUnread] at hwithin
  omega

end TradingDesk.Exec
