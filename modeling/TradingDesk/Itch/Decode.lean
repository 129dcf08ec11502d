import TradingDesk.Core.Cursor
import TradingDesk.Core.Double
import TradingDesk.Itch.Messages

/-!
# TradingDesk.Itch.Decode

**The field decoders and `decode`** (`itch_messages.hpp`). Each decoder reads at
the pointer without a bound check and moves pointer and remaining length; only
`decode` looks at the remaining length, once, before the first of them.

`parseFields` is the other reading of a message: the body cut up by the field
sizes, every field big-endian. It knows no pointer and no host, and
`decodeFields_fst` says that on a little-endian host the decoders
compute it.
-/

namespace TradingDesk.Itch

open TradingDesk.Core

/-! ### Decoded values -/

/-- The value of a decoded field. -/
inductive FieldValue (F : Type)
  | integer (v : Nat)
  /-- Nanoseconds since midnight. -/
  | timestamp (count : Nat)
  | char (c : UInt8)
  | text (cs : List UInt8)
  | price (value : F)
  deriving Repr, DecidableEq

/-- A decoded message: its type and the values of `type.fields`, in order. -/
structure Message (F : Type) where
  type : MessageType
  values : List (FieldValue F)
  deriving Repr, DecidableEq

variable {F : Type} [DoubleArith F]

/-! ### Decoders -/

/-- `unchecked_decode_char`. -/
def uncheckedDecodeChar (mem : Memory) (c : Cursor) : UInt8 × Cursor :=
  (mem c.p, c.read 1)

/-- `std::tolower` on a byte. -/
def toLower (b : UInt8) : UInt8 := if 'A'.toUInt8 ≤ b ∧ b ≤ 'Z'.toUInt8 then b + 32 else b

/-- `unchecked_decode_string_to_lower`. -/
def uncheckedDecodeStringToLower (mem : Memory) (c : Cursor) (expected : Nat) :
    List UInt8 × Cursor :=
  ((mem.bytes c.p expected).map toLower, c.read expected)

/-- `unchecked_decode_integer` of an unsigned integer of `w` bytes. -/
def uncheckedDecodeInteger (host : ByteOrder) (mem : Memory) (c : Cursor) (w : Nat) :
    Nat × Cursor :=
  (host.bigToNative w (host.load (mem.bytes c.p w)), c.read w)

/-- `nasdaq_price::compute_den`. -/
def computeDen (base : F) : Nat → F
  | 0 | 1 => base
  | power + 2 => DoubleArith.mul base (computeDen base (power + 1))

/-- `static_cast<double>(v) / compute_den(10.0, 4)`. -/
def priceValue (v : Nat) : F :=
  DoubleArith.div (DoubleArith.ofUInt32 (UInt32.ofNat v))
    (computeDen (DoubleArith.ofUInt32 10) 4)

/-- `nasdaq_price<4>::unchecked_decode`. -/
def uncheckedDecodePrice (host : ByteOrder) (mem : Memory) (c : Cursor) : F × Cursor :=
  let (v, c) := uncheckedDecodeInteger host mem c priceStoredSize
  (priceValue v, c)

/-- `nasdaq_timestamp::unchecked_decode`: six bytes copied to the front of a zeroed
64-bit integer, which is then shifted left by 16 bits and byte-swapped. -/
def uncheckedDecodeTimestamp (host : ByteOrder) (mem : Memory) (c : Cursor) : Nat × Cursor :=
  let v := host.load (mem.bytes c.p timestampStoredSize ++ [0, 0])
  (host.bigToNative 8 (v * 2 ^ 16 % 2 ^ 64), c.read timestampStoredSize)

/-- The decoder of a field, by its kind. -/
def decodeField (host : ByteOrder) (mem : Memory) (c : Cursor) : FieldKind → FieldValue F × Cursor
  | .integer w => (uncheckedDecodeInteger host mem c w).map .integer id
  | .timestamp => (uncheckedDecodeTimestamp host mem c).map .timestamp id
  | .char => (uncheckedDecodeChar mem c).map .char id
  | .text n => (uncheckedDecodeStringToLower mem c n).map .text id
  | .price => (uncheckedDecodePrice host mem c).map .price id

/-- A sequence of field decoders. -/
def decodeFields (host : ByteOrder) (mem : Memory) (c : Cursor) :
    List Field → List (FieldValue F) × Cursor
  | [] => ([], c)
  | f :: fs =>
    let (v, c) := decodeField host mem c f.kind
    let (vs, c) := decodeFields host mem c fs
    (v :: vs, c)

/-- The value of a member that `emplace` initialised and no decoder wrote. -/
def FieldKind.zero : FieldKind → FieldValue F
  | integer _ => .integer 0
  | timestamp => .timestamp 0
  | char => .char 0
  | text n => .text (List.replicate n 0)
  | price => .price (DoubleArith.ofUInt32 0)

/-- `emplace<x>()`. -/
def Message.initial (t : MessageType) : Message F := ⟨t, t.fields.map fun f => f.kind.zero⟩

/-- `decode`, on a message fresh from `emplace`: whether it did anything, the
message, and the cursor. The message code is stepped over without a look at it. -/
def MessageType.decode (host : ByteOrder) (mem : Memory) (t : MessageType) (c : Cursor) :
    Bool × Message F × Cursor :=
  if c.l < t.messageSize then (false, .initial t, c)
  else
    let (vs, c) := decodeFields host mem (c.skip 1) t.fields
    (true, ⟨t, vs⟩, c)

/-! ### Where the decoders leave the cursor -/

theorem decodeField_snd (host : ByteOrder) (mem : Memory) (c : Cursor) (k : FieldKind) :
    (decodeField (F := F) host mem c k).2 = c.read k.storedSize := by
  cases k <;> rfl

theorem decodeFields_snd (host : ByteOrder) (mem : Memory) (c : Cursor) {fs : List Field}
    (h : fieldsSize fs ≤ c.l) :
    (decodeFields (F := F) host mem c fs).2 = c.skip (fieldsSize fs) := by
  induction fs generalizing c with
  | nil => simp [decodeFields]
  | cons f fs ih =>
      rw [fieldsSize_cons] at h ⊢
      push_cast at h
      have hread : c.read f.kind.storedSize = c.skip f.kind.storedSize :=
        Cursor.read_of_le (by omega)
      simp only [decodeFields, decodeField_snd, hread]
      rw [ih _ (by rw [Cursor.skip_l]; omega), Cursor.skip_skip]

/-- `decode` succeeds exactly if the message size of its type is left. -/
theorem MessageType.decode_fst {host : ByteOrder} {mem : Memory} {t : MessageType} {c : Cursor} :
    (t.decode (F := F) host mem c).1 = true ↔ t.messageSize ≤ c.l := by
  unfold decode
  by_cases h : c.l < t.messageSize
  · rw [if_pos h]
    exact iff_of_false nofun (by omega)
  · rw [if_neg h]
    exact iff_of_true rfl (by omega)

/-- `decode` gives up and stays, or consumes the message size of its type. -/
theorem MessageType.decode_snd_snd (host : ByteOrder) (mem : Memory) (t : MessageType)
    (c : Cursor) :
    (t.decode (F := F) host mem c).2.2
      = if c.l < t.messageSize then c else c.skip t.messageSize := by
  unfold decode
  by_cases h : c.l < t.messageSize
  · rw [if_pos h, if_pos h]
  · rw [if_neg h, if_neg h]
    have hfields : fieldsSize t.fields ≤ (c.skip 1).l := by
      rw [messageSize_eq] at h
      push_cast at h
      rw [Cursor.skip_l]
      push_cast
      omega
    show (decodeFields (F := F) host mem (c.skip 1) t.fields).2 = _
    rw [decodeFields_snd host mem _ hfields, Cursor.skip_skip, messageSize_eq]

/-! ### What the decoders compute -/

/-- The value of a field with the bytes `bs` on the wire. -/
def parseField (bs : List UInt8) : FieldKind → FieldValue F
  | .integer _ => .integer (ofBytesBE bs)
  | .timestamp => .timestamp (ofBytesBE bs)
  | .char => .char (bs.headD 0)
  | .text _ => .text (bs.map toLower)
  | .price => .price (priceValue (ofBytesBE bs))

/-- The fields of a message body, cut off its bytes one after the other. -/
def parseFields : List UInt8 → List Field → List (FieldValue F)
  | _, [] => []
  | bs, f :: fs =>
    parseField (bs.take f.kind.storedSize) f.kind :: parseFields (bs.drop f.kind.storedSize) fs

/-- The shift moves the six bytes of a timestamp to the front of the integer that
the byte swap then reverses. -/
theorem byteSwap_shift {bs : List UInt8} (h : bs.length = 6) :
    ByteOrder.byteSwap 8 (ofBytes (bs ++ [0, 0]) * 2 ^ 16 % 2 ^ 64) = ofBytesBE bs := by
  have hlt : ofBytes bs < 256 ^ 6 := h ▸ ofBytes_lt bs
  have hload : ofBytes (bs ++ [0, 0]) = ofBytes bs := by
    simp [ofBytes_append, ofBytes_cons]
  have hshift : ofBytes bs * 2 ^ 16 % 2 ^ 64 = ofBytes ([0, 0] ++ bs) := by
    rw [Nat.mod_eq_of_lt (by omega)]
    simp only [List.cons_append, List.nil_append, ofBytes_cons, UInt8.toNat_zero]
    omega
  have hswap : toBytes 8 (ofBytes ([0, 0] ++ bs)) = [0, 0] ++ bs := by
    have := toBytes_ofBytes ([0, 0] ++ bs)
    rwa [List.length_append, h] at this
  rw [hload, hshift, ByteOrder.byteSwap, hswap, ofBytesBE, List.reverse_append, ofBytes_append]
  simp [ofBytesBE, ofBytes_cons]

theorem decodeField_fst (mem : Memory) (c : Cursor) (k : FieldKind) :
    (decodeField (F := F) .little mem c k).1 = parseField (mem.bytes c.p k.storedSize) k := by
  cases k with
  | integer w =>
      exact congrArg FieldValue.integer
        (ByteOrder.bigToNative_load .little (mem.length_bytes c.p w))
  | timestamp =>
      exact congrArg FieldValue.timestamp (byteSwap_shift (mem.length_bytes c.p 6))
  | char | text n => rfl
  | price =>
      have := ByteOrder.bigToNative_load .little (mem.length_bytes c.p priceStoredSize)
      exact congrArg (fun v => FieldValue.price (priceValue v)) this

/-- **The decoders compute the fields of the body they are pointed at.** -/
theorem decodeFields_fst (mem : Memory) (c : Cursor) {fs : List Field} {bs : List UInt8}
    (h : mem.bytes c.p (fieldsSize fs) = bs) :
    (decodeFields (F := F) .little mem c fs).1 = parseFields bs fs := by
  induction fs generalizing c bs with
  | nil => rfl
  | cons f fs ih =>
      rw [fieldsSize_cons, Memory.bytes_add] at h
      subst h
      have hcut := mem.length_bytes c.p f.kind.storedSize
      have hnext : (decodeField (F := F) .little mem c f.kind).2.p = c.p + f.kind.storedSize := by
        rw [decodeField_snd, Cursor.read_p]
      rw [parseFields, List.take_left' hcut, List.drop_left' hcut, ← decodeField_fst mem c,
        ← ih (decodeField (F := F) .little mem c f.kind).2 (by rw [hnext])]
      rfl

/-- With enough bytes left, `decode` returns the fields of the body behind the code
and consumes the message size. -/
theorem MessageType.decode_eq {mem : Memory} {t : MessageType} {c : Cursor} {bs : List UInt8}
    (hl : t.messageSize ≤ c.l) (h : mem.bytes (c.p + 1) (fieldsSize t.fields) = bs) :
    t.decode (F := F) .little mem c
      = (true, ⟨t, parseFields bs t.fields⟩, c.skip t.messageSize) := by
  have hcur := t.decode_snd_snd (F := F) .little mem c
  rw [if_neg (by omega)] at hcur
  rw [← hcur, ← decodeFields_fst mem (c.skip 1) h, decode, if_neg (by omega)]

end TradingDesk.Itch
