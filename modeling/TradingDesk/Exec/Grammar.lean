import TradingDesk.Exec.PartialRead

/-!
# TradingDesk.Exec.Grammar

**What the reader of snapshots accepts.** A snapshot is a count and as many orders,
twice, with anything behind it; counts are taken at their word. `accepts_grammar_iff` says that on
a little-endian host these are the byte strings that `deserialize_state` accepts, and what
it makes of each, however little of the buffer the counts leave: if and only if the tables take
the orders of a snapshot.

The two directions are the two halves of a codec. The bytes of any sixteen are those of
an order, so what the reader has found encodes to what it has read; and what is encoded
there is what it finds.
-/

namespace TradingDesk.Exec

open TradingDesk.Core
open UnorderedMap (find? clear reserve Refills)

/-! ### The bytes of what was found -/

theorem toBytes_load {mem : Memory} (p w : Nat) :
    toBytes w (ByteOrder.load .little (mem.bytes p w)) = mem.bytes p w := by
  have hbytes := toBytes_ofBytes (mem.bytes p w)
  rwa [Memory.length_bytes] at hbytes

theorem load_lt (mem : Memory) (p w : Nat) : ByteOrder.load .little (mem.bytes p w) < 256 ^ w := by
  have hlt := ofBytes_lt (mem.bytes p w)
  rwa [Memory.length_bytes] at hlt

theorem encodeOrder_entryAt (mem : Memory) (p : Nat) :
    encodeOrder (entryAt .little mem p) = mem.bytes p 16 := by
  have hword : (UInt64.ofNat (ByteOrder.load .little (mem.bytes p 8))).toNat
      = ByteOrder.load .little (mem.bytes p 8) := UInt64.toNat_ofNat_of_lt' (load_lt mem p 8)
  have hhalf : ∀ q, (UInt32.ofNat (ByteOrder.load .little (mem.bytes q 4))).toNat
      = ByteOrder.load .little (mem.bytes q 4) :=
    fun q => UInt32.toNat_ofNat_of_lt' (load_lt mem q 4)
  rw [encodeOrder, entryAt, hword, hhalf, hhalf, toBytes_load, toBytes_load, toBytes_load,
    Memory.bytes_add mem p 12 4, Memory.bytes_add mem p 8 4]

theorem encodeOrders_entriesAt (mem : Memory) (p n : Nat) :
    encodeOrders (entriesAt .little mem p n) = mem.bytes p (16 * n) := by
  induction n generalizing p with
  | zero => rfl
  | succ n ih =>
      have hcons : encodeOrders (entriesAt .little mem p (n + 1))
          = encodeOrder (entryAt .little mem p) ++
            encodeOrders (entriesAt .little mem (p + 16) n) := rfl
      rw [hcons, encodeOrder_entryAt, ih, Nat.mul_succ, Nat.add_comm (16 * n), Memory.bytes_add]

/-! ### One map -/

/-- The bytes that a cursor has left start with the encoding of these orders. -/
structure StartsWithMap (mem : Memory) (p : Cursor) (entries : List (UInt64 × Order)) : Prop where
  /-- Their number is one that the size field has room for. -/
  count : entries.length < 2 ^ 64
  /-- All of them are there. -/
  fits : ((8 + 16 * entries.length : Nat) : Int) ≤ p.l
  bytes : mem.bytes p.p (8 + 16 * entries.length) = encodeMap entries

theorem StartsWithMap.storedCount_eq {mem : Memory} {p : Cursor} {entries : List (UInt64 × Order)}
    (h : StartsWithMap mem p entries) : storedCount .little mem p = entries.length :=
  storedCount_encodeMap .little h.count h.bytes

theorem StartsWithMap.storedOrders_eq {mem : Memory} {p : Cursor} {entries : List (UInt64 × Order)}
    (h : StartsWithMap mem p entries) : storedOrders .little mem p = entries := by
  rw [storedOrders_encodeMap h.storedCount_eq h.fits h.bytes, reread_little, List.map_id]

theorem StartsWithMap.takesOrders_iff {T : Type} [UnorderedMap T UInt64 Order] {mem : Memory}
    {p : Cursor} {entries : List (UInt64 × Order)} (h : StartsWithMap mem p entries) {m : T} :
    TakesOrders .little mem p m ↔ Refills m entries.length entries := by
  rw [TakesOrders, h.storedCount_eq, h.storedOrders_eq]

/-- Where the count is covered, the orders that are there encode to the bytes. -/
theorem startsWithMap_storedOrders {mem : Memory} {p : Cursor}
    (h : 8 + 16 * (storedCount .little mem p : Int) ≤ p.l) :
    StartsWithMap mem p (storedOrders .little mem p) ∧
      (storedOrders .little mem p).length = storedCount .little mem p := by
  have hmin : min (storedCount .little mem p) ((p.l - 8).toNat / 16)
      = storedCount .little mem p := by
    omega
  have hlen : (storedOrders .little mem p).length = storedCount .little mem p := by
    rw [storedOrders, hmin, length_entriesAt]
  refine ⟨⟨?_, ?_, ?_⟩, hlen⟩
  · rw [hlen]
    exact load_lt mem p.p 8
  · rw [hlen]
    push_cast
    exact h
  · rw [hlen, encodeMap, hlen, storedOrders, hmin, encodeOrders_entriesAt, storedCount,
      toBytes_load, Memory.bytes_add]

variable {T : Type} [UnorderedMap T UInt64 Order]

/-- The reader of a map accepts exactly the encodings of maps, and gets all of what is
encoded. -/
theorem deserializeOrderMap_accepts {mem : Memory} {p p' : Cursor} {m m' : T} {done : Bool}
    (hread : deserializeOrderMap .little mem p m = (some done, p', m')) :
    (done = true ↔ ∃ entries, StartsWithMap mem p entries) ∧
      ∀ entries, StartsWithMap mem p entries →
        p' = p.skip (8 + 16 * entries.length) ∧ find? m' = fun k => entries.lookup k := by
  by_cases h8 : 8 ≤ p.l
  · obtain ⟨hmap, hdone, hpos⟩ := deserializeOrderMap_of_le h8 hread
    have haccept : ∀ entries, StartsWithMap mem p entries → done = true := by
      intro entries hstarts
      have hfits := hstarts.fits
      rw [hdone, decide_eq_true_iff, hstarts.storedCount_eq]
      push_cast at hfits
      exact hfits
    refine ⟨⟨fun htrue => ?_, fun ⟨entries, hstarts⟩ => haccept entries hstarts⟩, ?_⟩
    · rw [hdone, decide_eq_true_iff] at htrue
      exact ⟨_, (startsWithMap_storedOrders htrue).1⟩
    · intro entries hstarts
      have hp := hpos (haccept entries hstarts)
      rw [hstarts.storedCount_eq] at hp
      rw [hstarts.storedOrders_eq] at hmap
      exact ⟨hp, hmap⟩
  · rw [deserializeOrderMap_of_lt (by omega)] at hread
    cases hread
    have hnone : ∀ entries, ¬ StartsWithMap mem p entries := by
      intro entries hstarts
      have hfits := hstarts.fits
      push_cast at hfits
      omega
    exact ⟨iff_of_false (by simp) fun ⟨entries, hstarts⟩ => hnone entries hstarts,
      fun entries hstarts => absurd hstarts (hnone entries)⟩

/-! ### The cursor never passes the end -/

theorem deserializeInteger_ahead {host : ByteOrder} {mem : Memory} {w : Nat} {p p' : Cursor}
    {r : Option Nat} (h : deserializeInteger host mem w p = (r, p')) (hl : 0 ≤ p.l) :
    p.Ahead p' := by
  rw [deserializeInteger] at h
  split at h
  · cases h
    exact Cursor.Ahead.refl hl
  · rename_i hcovers
    have hle : (w : Int) ≤ p.l := by omega
    cases h
    rw [Cursor.read_of_le hle]
    exact Cursor.ahead_skip hle

theorem deserializeOrder_ahead {host : ByteOrder} {mem : Memory} {p p' : Cursor}
    {r : Option (UInt64 × Order)} (h : deserializeOrder host mem p = (r, p')) (hl : 0 ≤ p.l) :
    p.Ahead p' := by
  rw [deserializeOrder] at h
  rcases href : deserializeInteger host mem 8 p with ⟨_ | reference, p₁⟩
  · simp only [href] at h
    cases h
    exact deserializeInteger_ahead href hl
  have h₁ := deserializeInteger_ahead href hl
  rcases hprice : deserializeInteger host mem 4 p₁ with ⟨_ | price, p₂⟩
  · simp only [href, hprice] at h
    cases h
    exact h₁.trans (deserializeInteger_ahead hprice h₁.nonneg)
  have h₂ := h₁.trans (deserializeInteger_ahead hprice h₁.nonneg)
  rcases hshares : deserializeInteger host mem 4 p₂ with ⟨_ | shares, p₃⟩ <;>
    simp only [href, hprice, hshares] at h <;>
    cases h <;>
    exact h₂.trans (deserializeInteger_ahead hshares h₂.nonneg)

/-- Round by round. -/
theorem deserializeOrders_ahead (host : ByteOrder) (mem : Memory) (n : Nat) {p : Cursor} (m : T)
    (hl : 0 ≤ p.l) : p.Ahead (deserializeOrders host mem n p m).2.1 := by
  induction n generalizing p m with
  | zero => exact Cursor.Ahead.refl hl
  | succ n ih =>
      rcases hone : deserializeOrder host mem p with ⟨_ | o, p₁⟩
      · simp only [deserializeOrders, hone]
        exact deserializeOrder_ahead hone hl
      · have h₁ := deserializeOrder_ahead hone hl
        simp only [deserializeOrders, hone]
        cases UnorderedMap.emplace? m o.1 o.2 with
        | none => exact h₁
        | some m => exact h₁.trans (ih m h₁.nonneg)

theorem deserializeOrderMap_ahead {host : ByteOrder} {mem : Memory} {p p' : Cursor} {m m' : T}
    {done : Option Bool} (h : deserializeOrderMap host mem p m = (done, p', m')) (hl : 0 ≤ p.l) :
    p.Ahead p' := by
  rw [deserializeOrderMap] at h
  rcases hcount : deserializeInteger host mem 8 p with ⟨_ | s, p₁⟩
  · simp only [hcount] at h
    cases h
    exact deserializeInteger_ahead hcount hl
  have h₁ := deserializeInteger_ahead hcount hl
  cases hroom : reserve (clear m) s with
  | none =>
      simp only [hcount, hroom] at h
      cases h
      exact h₁
  | some room =>
      simp only [hcount, hroom] at h
      have hrest := deserializeOrders_ahead host mem s room h₁.nonneg
      rw [h] at hrest
      exact h₁.trans hrest

namespace ExecutionEngine

theorem deserializeState_ahead {host : ByteOrder} {mem : Memory} {p p' : Cursor}
    {e e' : ExecutionEngine T} {done : Option Bool}
    (h : e.deserializeState host mem p = (done, p', e')) (hl : 0 ≤ p.l) : p.Ahead p' := by
  rw [deserializeState] at h
  rcases hbuy : deserializeOrderMap host mem p e.allBuyOrders with ⟨_ | _ | _, p₁, buys⟩
  · simp only [hbuy] at h
    cases h
    exact deserializeOrderMap_ahead hbuy hl
  · simp only [hbuy] at h
    cases h
    exact deserializeOrderMap_ahead hbuy hl
  · have h₁ := deserializeOrderMap_ahead hbuy hl
    simp only [hbuy] at h
    rcases hsell : deserializeOrderMap host mem p₁ (e.setSide .buy buys).allSellOrders
      with ⟨done₂, p₂, sells⟩
    rw [hsell] at h
    cases h
    exact h₁.trans (deserializeOrderMap_ahead hsell h₁.nonneg)

/-! ### The state -/

/-- The reader of a state accepts exactly two encodings of maps in a row. -/
theorem deserializeState_accepts {mem : Memory} {p p' : Cursor} {e e' : ExecutionEngine T}
    {done : Bool} (h : e.deserializeState .little mem p = (some done, p', e')) :
    (done = true ↔ ∃ buys sells, StartsWithMap mem p buys ∧
        StartsWithMap mem (p.skip (8 + 16 * buys.length)) sells) ∧
      ∀ buys sells, StartsWithMap mem p buys →
        StartsWithMap mem (p.skip (8 + 16 * buys.length)) sells →
        p' = p.skip (16 + 16 * (buys.length + sells.length)) ∧
          find? e'.allBuyOrders = (fun k => buys.lookup k) ∧
          find? e'.allSellOrders = fun k => sells.lookup k := by
  rw [deserializeState] at h
  rcases hbuy : deserializeOrderMap .little mem p e.allBuyOrders with ⟨_ | _ | _, p₁, buyMap⟩
  · simp [hbuy] at h
  · obtain ⟨haccept, -⟩ := deserializeOrderMap_accepts hbuy
    simp only [hbuy] at h
    cases h
    have hnone : ∀ buys, ¬ StartsWithMap mem p buys := by
      intro buys hstarts
      exact Bool.false_ne_true (haccept.mpr ⟨buys, hstarts⟩)
    refine ⟨iff_of_false Bool.false_ne_true ?_, fun buys _ hstarts => absurd hstarts (hnone buys)⟩
    rintro ⟨buys, -, hstarts, -⟩
    exact hnone buys hstarts
  · obtain ⟨haccept, hbuys⟩ := deserializeOrderMap_accepts hbuy
    obtain ⟨buys₀, hstarts₀⟩ := haccept.mp rfl
    simp only [hbuy] at h
    rcases hsell : deserializeOrderMap .little mem p₁ (e.setSide .buy buyMap).allSellOrders
      with ⟨done₂, p₂, sellMap⟩
    rw [hsell] at h
    cases h
    obtain ⟨haccept', hsells⟩ := deserializeOrderMap_accepts hsell
    constructor
    · rw [haccept']
      constructor
      · rintro ⟨sells, hstarts'⟩
        rw [(hbuys buys₀ hstarts₀).1] at hstarts'
        exact ⟨buys₀, sells, hstarts₀, hstarts'⟩
      · rintro ⟨buys, sells, hstarts, hstarts'⟩
        rw [← (hbuys buys hstarts).1] at hstarts'
        exact ⟨sells, hstarts'⟩
    · intro buys sells hstarts hstarts'
      obtain ⟨rfl, hfindBuy⟩ := hbuys buys hstarts
      obtain ⟨rfl, hfindSell⟩ := hsells sells hstarts'
      have hsum : 8 + 16 * buys.length + (8 + 16 * sells.length)
          = 16 + 16 * (buys.length + sells.length) := by
        omega
      rw [Cursor.skip_skip, hsum]
      exact ⟨rfl, hfindBuy, hfindSell⟩

/-- The reader of a state throws nothing at two encodings of maps in a row if and only if both
tables take the orders, provided that they can make room for them. -/
theorem deserializeState_ne_none_iff {mem : Memory} {p : Cursor} {e : ExecutionEngine T}
    {buys sells : List (UInt64 × Order)} (hbuy : StartsWithMap mem p buys)
    (hsell : StartsWithMap mem (p.skip (8 + 16 * buys.length)) sells)
    (hroomBuy : (reserve (clear e.allBuyOrders) buys.length).isSome)
    (hroomSell : (reserve (clear e.allSellOrders) sells.length).isSome) :
    (e.deserializeState .little mem p).1 ≠ none ↔
      Refills e.allBuyOrders buys.length buys ∧ Refills e.allSellOrders sells.length sells := by
  have hfits := hbuy.fits
  have hfits' := hsell.fits
  push_cast at hfits hfits'
  have h₈ : 8 ≤ p.l := by omega
  have h₈' : 8 ≤ (p.skip (8 + 16 * buys.length)).l := by omega
  have hother : ∀ m, (e.setSide .buy m).allSellOrders = e.allSellOrders := fun _ => rfl
  rw [← hbuy.takesOrders_iff, ← hsell.takesOrders_iff]
  constructor
  · intro hne
    rw [deserializeState] at hne
    rcases hread : deserializeOrderMap .little mem p e.allBuyOrders with ⟨_ | done, p₁, buyMap⟩
    · simp [hread] at hne
    have htakesBuy := (takesOrders_of_some h₈ hread).2
    obtain ⟨haccept, hmoves⟩ := deserializeOrderMap_accepts hread
    obtain rfl : done = true := haccept.mpr ⟨buys, hbuy⟩
    obtain ⟨rfl, -⟩ := hmoves buys hbuy
    refine ⟨htakesBuy, ?_⟩
    simp only [hread, hother] at hne
    rcases hread' : deserializeOrderMap .little mem (p.skip (8 + 16 * buys.length)) e.allSellOrders
      with ⟨_ | done, p₂, sellMap⟩
    · simp [hread'] at hne
    · exact (takesOrders_of_some h₈' hread').2
  · rintro ⟨htakesBuy, htakesSell⟩
    obtain ⟨buyMap, hread, -⟩ := deserializeOrderMap_of_covers
      (by rw [hbuy.storedCount_eq]; omega) (by rwa [hbuy.storedCount_eq]) htakesBuy
    obtain ⟨sellMap, hread', -⟩ := deserializeOrderMap_of_covers
      (by rw [hsell.storedCount_eq]; omega) (by rwa [hsell.storedCount_eq]) htakesSell
    rw [hbuy.storedCount_eq] at hread
    simp only [deserializeState, hread, hother, hread']
    exact Option.some_ne_none _

end ExecutionEngine

/-- A byte string is two encoded maps and a rest. The entries of a map are those that are
listed, references that occur several times included. -/
structure IsEncodedState (bs : List UInt8) (buys sells : List (UInt64 × Order))
    (rest : List UInt8) :
    Prop where
  buyCount : buys.length < 2 ^ 64
  sellCount : sells.length < 2 ^ 64
  bytes_eq : bs = encodeMap buys ++ encodeMap sells ++ rest

theorem IsEncodedState.length_eq {bs rest : List UInt8} {buys sells : List (UInt64 × Order)}
    (h : IsEncodedState bs buys sells rest) :
    bs.length = 16 + 16 * (buys.length + sells.length) + rest.length := by
  rw [h.bytes_eq, List.length_append, List.length_append, length_encodeMap, length_encodeMap]
  omega

/-- In memory, that is one encoded map behind the other. -/
theorem IsEncodedState.startsWithMap {bs rest : List UInt8} {buys sells : List (UInt64 × Order)}
    (h : IsEncodedState bs buys sells rest) {mem : Memory} (hmem : mem.bytes 0 bs.length = bs) :
    StartsWithMap mem (.start bs.length) buys ∧
      StartsWithMap mem ((Cursor.start bs.length).skip (8 + 16 * buys.length)) sells := by
  have hlen := h.length_eq
  have hl : (Cursor.start bs.length).l = bs.length := rfl
  have hp : (Cursor.start bs.length).p = 0 := rfl
  have hbytes : mem.bytes 0 bs.length = encodeMap buys ++ (encodeMap sells ++ rest) := by
    rw [hmem, ← List.append_assoc]
    exact h.bytes_eq
  obtain ⟨hbuy, hrest⟩ := Memory.bytes_eq_append hbytes
  obtain ⟨hsell, -⟩ := Memory.bytes_eq_append hrest
  rw [length_encodeMap] at hbuy hsell
  rw [length_encodeMap] at hsell
  constructor
  · exact ⟨h.buyCount, by rw [hl]; push_cast; omega, hbuy⟩
  · exact ⟨h.sellCount, by rw [Cursor.skip_l, hl]; push_cast; omega, hsell⟩

/-- The reader gets to both size fields of a snapshot, and finds the lengths of the maps in them. -/
theorem IsEncodedState.sizeFields {bs rest : List UInt8} {buys sells : List (UInt64 × Order)}
    (h : IsEncodedState bs buys sells rest) {mem : Memory} (hmem : mem.bytes 0 bs.length = bs) :
    reached .little mem (.start bs.length) .buy = some (.start bs.length) ∧
      storedCount .little mem (.start bs.length) = buys.length ∧
      reached .little mem (.start bs.length) .sell
        = some ((Cursor.start bs.length).skip (8 + 16 * buys.length)) ∧
      storedCount .little mem ((Cursor.start bs.length).skip (8 + 16 * buys.length))
        = sells.length := by
  obtain ⟨hbuy, hsell⟩ := h.startsWithMap hmem
  have hfits := hsell.fits
  rw [Cursor.skip_l] at hfits
  push_cast at hfits
  refine ⟨if_pos (by omega), hbuy.storedCount_eq, ?_, hsell.storedCount_eq⟩
  rw [reached, hbuy.storedCount_eq]
  exact if_pos ⟨by omega, by push_cast; omega⟩

theorem isEncodedState_of_startsWithMap {bs : List UInt8} {buys sells : List (UInt64 × Order)}
    {mem : Memory} (hmem : mem.bytes 0 bs.length = bs)
    (hbuy : StartsWithMap mem (.start bs.length) buys)
    (hsell : StartsWithMap mem ((Cursor.start bs.length).skip (8 + 16 * buys.length)) sells) :
    ∃ rest, IsEncodedState bs buys sells rest := by
  have hl : (Cursor.start bs.length).l = bs.length := rfl
  have hfits := hsell.fits
  rw [Cursor.skip_l, hl] at hfits
  push_cast at hfits
  have hle : 8 + 16 * buys.length + (8 + 16 * sells.length) ≤ bs.length := by omega
  obtain ⟨k, hk⟩ := Nat.exists_eq_add_of_le hle
  have hbuyBytes : mem.bytes 0 (8 + 16 * buys.length) = encodeMap buys := hbuy.bytes
  have hsellBytes : mem.bytes (0 + (8 + 16 * buys.length)) (8 + 16 * sells.length)
      = encodeMap sells := hsell.bytes
  refine ⟨mem.bytes (0 + (8 + 16 * buys.length + (8 + 16 * sells.length))) k,
    hbuy.count, hsell.count, ?_⟩
  rw [← hmem, hk, Memory.bytes_add, Memory.bytes_add, hbuyBytes, hsellBytes]

/-- The reader accepts a buffer exactly if it is a snapshot; then the cursor is behind the two
maps, and each table holds the first entry of every reference that is listed and nothing else. If
it rejects it, the cursor did not pass the end. -/
structure AcceptsGrammar (bs : List UInt8) (mem : Memory) (e : ExecutionEngine T) : Prop where
  accepts : (e.deserializeState .little mem (.start bs.length)).1 = some true ↔
    ∃ buys sells rest, IsEncodedState bs buys sells rest
  reads : ∀ {p e'}, e.deserializeState .little mem (.start bs.length) = (some true, p, e') →
    ∀ buys sells rest, IsEncodedState bs buys sells rest →
      p = ⟨16 + 16 * (buys.length + sells.length), rest.length, true⟩ ∧
        find? e'.allBuyOrders = (fun ref => buys.lookup ref) ∧
        find? e'.allSellOrders = fun ref => sells.lookup ref
  rejects : ∀ {p e'}, e.deserializeState .little mem (.start bs.length) = (some false, p, e') →
    p.inBounds = true ∧ 0 ≤ p.l ∧ (p.p : Int) + p.l = bs.length

/-- What a read that throws nothing makes of a snapshot. -/
theorem IsEncodedState.reads {bs rest : List UInt8} {buys sells : List (UInt64 × Order)}
    (hstate : IsEncodedState bs buys sells rest) {mem : Memory} (hmem : mem.bytes 0 bs.length = bs)
    {e e' : ExecutionEngine T} {p : Cursor} {done : Bool}
    (h : e.deserializeState .little mem (.start bs.length) = (some done, p, e')) :
    p = ⟨16 + 16 * (buys.length + sells.length), rest.length, true⟩ ∧
      find? e'.allBuyOrders = (fun ref => buys.lookup ref) ∧
      find? e'.allSellOrders = fun ref => sells.lookup ref := by
  obtain ⟨hbuy, hsell⟩ := hstate.startsWithMap hmem
  obtain ⟨rfl, hfinds⟩ := (ExecutionEngine.deserializeState_accepts h).2 buys sells hbuy hsell
  have hlen := hstate.length_eq
  refine ⟨Cursor.ext (Nat.zero_add _) ?_ rfl, hfinds⟩
  rw [Cursor.skip_l]
  show (bs.length : Int) - ((16 + 16 * (buys.length + sells.length) : Nat) : Int) = rest.length
  omega

/-- **The reader accepts exactly the snapshots**, on a little-endian host and for a buffer with any
bytes, if and only if it is no snapshot with orders that the emptied tables do not take. The
tables are assumed to make the room that the size fields of the buffer ask for. -/
theorem accepts_grammar_iff {bs : List UInt8} {mem : Memory} (hmem : mem.bytes 0 bs.length = bs)
    {e : ExecutionEngine T}
    (hroom : ∀ s q, reached .little mem (.start bs.length) s = some q →
      (reserve (clear (e.side s)) (storedCount .little mem q)).isSome) :
    AcceptsGrammar bs mem e ↔
      ∀ buys sells rest, IsEncodedState bs buys sells rest →
        Refills e.allBuyOrders buys.length buys ∧ Refills e.allSellOrders sells.length sells := by
  have hthrows : ∀ {buys sells rest}, IsEncodedState bs buys sells rest →
      ((e.deserializeState .little mem (.start bs.length)).1 ≠ none ↔
        Refills e.allBuyOrders buys.length buys ∧ Refills e.allSellOrders sells.length sells) := by
    intro buys sells rest hstate
    obtain ⟨hfirst, hbuys, hsecond, hsells⟩ := hstate.sizeFields hmem
    have hroomBuy := hroom .buy _ hfirst
    have hroomSell := hroom .sell _ hsecond
    rw [hbuys] at hroomBuy
    rw [hsells] at hroomSell
    obtain ⟨hbuy, hsell⟩ := hstate.startsWithMap hmem
    exact ExecutionEngine.deserializeState_ne_none_iff hbuy hsell hroomBuy hroomSell
  constructor
  · intro haccepts buys sells rest hstate
    refine (hthrows hstate).mp ?_
    rw [haccepts.accepts.mpr ⟨buys, sells, rest, hstate⟩]
    exact Option.some_ne_none _
  · intro htakes
    refine ⟨?_, fun h _ _ _ hstate => hstate.reads hmem h, fun h => ?_⟩
    · rcases hread : e.deserializeState .little mem (.start bs.length) with ⟨_ | done, p, e'⟩
      · -- an exception, so no snapshot
        refine iff_of_false nofun ?_
        rintro ⟨buys, sells, rest, hstate⟩
        have hne := (hthrows hstate).mpr (htakes buys sells rest hstate)
        rw [hread] at hne
        exact hne rfl
      · obtain ⟨haccept, -⟩ := ExecutionEngine.deserializeState_accepts hread
        rw [Option.some.injEq, haccept]
        constructor
        · rintro ⟨buys, sells, hbuy, hsell⟩
          exact ⟨buys, sells, isEncodedState_of_startsWithMap hmem hbuy hsell⟩
        · rintro ⟨buys, sells, rest, hstate⟩
          exact ⟨buys, sells, hstate.startsWithMap hmem⟩
    · exact (ExecutionEngine.deserializeState_ahead h (Int.natCast_nonneg _)).of_start

/-- **A snapshot of a crowd.** 128 buying orders, and no selling ones. There is room for as many,
but the emptied table throws at the last of them. -/
theorem crowd_is_not_accepted :
    let bs := encodeMap (RobinHood.crowd.map RobinHood.bought) ++ encodeMap []
    let e : ExecutionEngine (RobinHood.Table Order) := .empty
    (∃ buys sells rest, IsEncodedState bs buys sells rest) ∧
      (∀ s q, reached .little (.ofList bs 0) (.start bs.length) s = some q →
        (reserve (clear (e.side s)) (storedCount .little (.ofList bs 0) q)).isSome) ∧
      (e.deserializeState .little (.ofList bs 0) (.start bs.length)).1 = none ∧
      ¬ AcceptsGrammar bs (.ofList bs 0) e := by
  intro bs e
  have hsmall : (RobinHood.crowd.map RobinHood.bought).length < 2 ^ 60 := by
    rw [RobinHood.length_bought]
    decide
  have hstate : IsEncodedState bs (RobinHood.crowd.map RobinHood.bought) [] [] :=
    ⟨hsmall.trans (by decide), by decide, (List.append_nil bs).symm⟩
  have hmem := Memory.bytes_ofList_zero bs 0
  obtain ⟨hbuy, hsell⟩ := hstate.startsWithMap hmem
  have hnone : (e.deserializeState .little (.ofList bs 0) (.start bs.length)).1 = none := by
    by_contra hsome
    have hrefills := (ExecutionEngine.deserializeState_ne_none_iff hbuy hsell
      (RobinHood.Table.reserve_clear_isSome _ hsmall)
      (RobinHood.Table.reserve_clear_isSome _ (by decide))).mp hsome
    exact RobinHood.Table.not_refills_crowd e.allBuyOrders (RobinHood.keys_bought _) hrefills.1
  refine ⟨⟨_, _, _, hstate⟩, fun s q hq => ?_, hnone, fun haccepts => ?_⟩
  · obtain ⟨hfirst, hbuys, hsecond, hsells⟩ := hstate.sizeFields hmem
    cases s with
    | buy =>
        obtain rfl := Option.some.inj (hfirst.symm.trans hq)
        rw [hbuys]
        exact RobinHood.Table.reserve_clear_isSome _ hsmall
    | sell =>
        obtain rfl := Option.some.inj (hsecond.symm.trans hq)
        rw [hsells]
        exact RobinHood.Table.reserve_clear_isSome _ (by decide)
  · have htrue := haccepts.accepts.mpr ⟨_, _, _, hstate⟩
    rw [hnone] at htrue
    cases htrue

/-- A buying side that lists one reference twice, no selling orders, and a byte more. -/
def repeatedReference : List UInt8 :=
  encodeMap [(1, ⟨1000, 10⟩), (1, ⟨2000, 20⟩)] ++ encodeMap [] ++ [7]

theorem repeatedReference_isEncodedState :
    IsEncodedState repeatedReference [(1, ⟨1000, 10⟩), (1, ⟨2000, 20⟩)] [] [7] :=
  ⟨by decide, by decide, rfl⟩

theorem repeatedReference_accepted :
    ∃ e', sampleEngine.deserializeState .little (.ofList repeatedReference 0) (.start 49)
        = (some true, ⟨48, 1, true⟩, e') ∧
      find? e'.allBuyOrders 1 = some ⟨1000, 10⟩ ∧ find? e'.allSellOrders 2 = none := by
  have haccepts : AcceptsGrammar repeatedReference (.ofList repeatedReference 0) sampleEngine :=
    (accepts_grammar_iff (Memory.bytes_ofList_zero repeatedReference 0) fun _ _ _ => rfl).mpr
      fun _ _ _ _ => ⟨fun room _ => room.admits _, fun room _ => room.admits _⟩
  have hdone := haccepts.accepts.mpr ⟨_, _, _, repeatedReference_isEncodedState⟩
  rcases hread : sampleEngine.deserializeState .little (.ofList repeatedReference 0)
    (.start repeatedReference.length) with ⟨done, p, e'⟩
  rw [hread] at hdone
  obtain rfl : done = some true := hdone
  obtain ⟨rfl, hbuy, hsell⟩ := haccepts.reads hread _ _ _ repeatedReference_isEncodedState
  exact ⟨e', hread, congrFun hbuy 1, congrFun hsell 2⟩

end TradingDesk.Exec
