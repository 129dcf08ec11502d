import TradingDesk.Core.Bytes

/-!
# TradingDesk.Itch.Messages

**The decodable ITCH messages** (`itch_messages.hpp`): the eleven message types
with a `decode` function, their codes, the fields they decode in declaration
order, and their `message_size` constants.

The source writes the size of a message twice, as the sequence of field decoders
and as a separate sum of `sizeof`s; so do `fields` and `messageSize`, and
`messageSize_eq` is the proof that the two agree for all eleven.
-/

namespace TradingDesk.Itch

/-! ### Fields -/

/-- The kinds of fields, by the function that decodes them. -/
inductive FieldKind
  /-- `unchecked_decode_integer` of an unsigned integer of `w` bytes. -/
  | integer (w : Nat)
  /-- `nasdaq_timestamp`: nanoseconds since midnight. -/
  | timestamp
  /-- `unchecked_decode_char`. -/
  | char
  /-- `unchecked_decode_string_to_lower` into an array of `n` characters. -/
  | text (n : Nat)
  /-- `nasdaq_price<4>`. -/
  | price
  deriving Repr, DecidableEq

/-- `nasdaq_timestamp::stored_size`. -/
def timestampStoredSize : Nat := 6

/-- `nasdaq_price<Decimals>::stored_size`. -/
def priceStoredSize : Nat := 4

/-- The number of bytes a field's decoder consumes. -/
def FieldKind.storedSize : FieldKind → Nat
  | integer w => w
  | timestamp => timestampStoredSize
  | char => 1
  | text n => n
  | price => priceStoredSize

/-- A field of a message. -/
structure Field where
  /-- The member's name. -/
  name : String
  /-- How it is decoded. -/
  kind : FieldKind
  deriving Repr, DecidableEq

/-- The bytes consumed by a sequence of field decoders. -/
def fieldsSize (fs : List Field) : Nat := (fs.map fun f => f.kind.storedSize).sum

@[simp] theorem fieldsSize_nil : fieldsSize [] = 0 := rfl

@[simp] theorem fieldsSize_cons (f : Field) (fs : List Field) :
    fieldsSize (f :: fs) = f.kind.storedSize + fieldsSize fs := by
  simp [fieldsSize]

/-! ### Message types -/

/-- The message types `read_next_message` dispatches on. -/
inductive MessageType
  | stockDirectory
  | addOrderWithoutAttribution
  | addOrderWithAttribution
  | orderExecuted
  | orderExecutedWithPrice
  | orderCancel
  | orderDelete
  | orderReplace
  | tradeCross
  | tradeNonCross
  | brokenTradeOrder
  deriving Repr, DecidableEq

namespace MessageType

/-- The types in the order of the `switch`. -/
def all : List MessageType :=
  [stockDirectory, addOrderWithoutAttribution, addOrderWithAttribution, orderExecuted,
    orderExecutedWithPrice, orderCancel, orderDelete, orderReplace, tradeCross, tradeNonCross,
    brokenTradeOrder]

/-- `message_code`. -/
def messageCode : MessageType → UInt8
  | stockDirectory => 'R'.toUInt8
  | addOrderWithoutAttribution => 'A'.toUInt8
  | addOrderWithAttribution => 'F'.toUInt8
  | orderExecuted => 'E'.toUInt8
  | orderExecutedWithPrice => 'C'.toUInt8
  | orderCancel => 'X'.toUInt8
  | orderDelete => 'D'.toUInt8
  | orderReplace => 'U'.toUInt8
  | tradeCross => 'Q'.toUInt8
  | tradeNonCross => 'P'.toUInt8
  | brokenTradeOrder => 'B'.toUInt8

/-- The `case` a code selects; `none` is the `default` branch. -/
def ofCode? (code : UInt8) : Option MessageType := all.find? fun t => t.messageCode == code

/-- The leading members that all eleven types share. -/
def header : List Field :=
  [⟨"stock_locate", .integer 2⟩, ⟨"tracking_number", .integer 2⟩, ⟨"nanoseconds", .timestamp⟩]

/-- The fields in the order in which `decode` reads them. -/
def fields : MessageType → List Field
  | stockDirectory => header ++
    [⟨"stock", .text 8⟩, ⟨"market_category", .char⟩, ⟨"financial_status", .char⟩,
      ⟨"round_lot_size", .integer 4⟩, ⟨"round_lots_only", .char⟩,
      ⟨"issue_classification", .char⟩, ⟨"issue_sub_type", .text 2⟩, ⟨"authenticity", .char⟩,
      ⟨"short_sale_threshold_indicator", .char⟩, ⟨"ipo_flag", .char⟩,
      ⟨"luld_reference_price_tier", .char⟩, ⟨"etp_flag", .char⟩,
      ⟨"etp_leverage_factor", .integer 4⟩, ⟨"inverse_indicator", .char⟩]
  | addOrderWithoutAttribution => header ++
    [⟨"reference_number", .integer 8⟩, ⟨"buy_sell", .char⟩, ⟨"shares", .integer 4⟩,
      ⟨"stock", .text 8⟩, ⟨"price", .price⟩]
  | addOrderWithAttribution => header ++
    [⟨"reference_number", .integer 8⟩, ⟨"buy_sell", .char⟩, ⟨"shares", .integer 4⟩,
      ⟨"stock", .text 8⟩, ⟨"price", .price⟩, ⟨"attribution", .text 4⟩]
  | orderExecuted => header ++
    [⟨"reference_number", .integer 8⟩, ⟨"executed_shares", .integer 4⟩,
      ⟨"match_number", .integer 8⟩]
  | orderExecutedWithPrice => header ++
    [⟨"reference_number", .integer 8⟩, ⟨"executed_shares", .integer 4⟩,
      ⟨"match_number", .integer 8⟩, ⟨"printable", .char⟩, ⟨"execution_price", .price⟩]
  | orderCancel => header ++
    [⟨"reference_number", .integer 8⟩, ⟨"cancelled_shares", .integer 4⟩]
  | orderDelete => header ++ [⟨"reference_number", .integer 8⟩]
  | orderReplace => header ++
    [⟨"original_reference_number", .integer 8⟩, ⟨"new_reference_number", .integer 8⟩,
      ⟨"shares", .integer 4⟩, ⟨"price", .price⟩]
  | tradeCross => header ++
    [⟨"shares", .integer 8⟩, ⟨"stock", .text 8⟩, ⟨"cross_price", .price⟩,
      ⟨"match_number", .integer 8⟩, ⟨"cross_type", .char⟩]
  | tradeNonCross => header ++
    [⟨"order_reference_number", .integer 8⟩, ⟨"buy_sell", .char⟩, ⟨"shares", .integer 4⟩,
      ⟨"stock", .text 8⟩, ⟨"price", .price⟩, ⟨"match_number", .integer 8⟩]
  | brokenTradeOrder => header ++ [⟨"match_number", .integer 8⟩]

/-- `message_size`, term by term as the source sums it up: `1` for a `char`, `2`,
`4` and `8` for the integers, `8`, `2` and `4` for the character arrays. -/
def messageSize : MessageType → Nat
  | stockDirectory =>
    1 + 2 + 2 + timestampStoredSize + 8 + 1 + 1 + 4 + 1 + 1 + 2 + 1 + 1 + 1 + 1 + 1 + 4 + 1
  | addOrderWithoutAttribution =>
    1 + 2 + 2 + timestampStoredSize + 8 + 1 + 4 + 8 + priceStoredSize
  | addOrderWithAttribution =>
    1 + 2 + 2 + timestampStoredSize + 8 + 1 + 4 + 8 + priceStoredSize + 4
  | orderExecuted => 1 + 2 + 2 + timestampStoredSize + 8 + 4 + 8
  | orderExecutedWithPrice =>
    1 + 2 + 2 + timestampStoredSize + 8 + 4 + 8 + 1 + priceStoredSize
  | orderCancel => 1 + 2 + 2 + timestampStoredSize + 8 + 4
  | orderDelete => 1 + 2 + 2 + timestampStoredSize + 8
  | orderReplace => 1 + 2 + 2 + timestampStoredSize + 8 + 8 + 4 + priceStoredSize
  | tradeCross => 1 + 2 + 2 + timestampStoredSize + 8 + 8 + priceStoredSize + 8 + 1
  | tradeNonCross => 1 + 2 + 2 + timestampStoredSize + 8 + 1 + 4 + 8 + priceStoredSize + 8
  | brokenTradeOrder => 1 + 2 + 2 + timestampStoredSize + 8

/-- The declared size of every message is its code and its fields. -/
theorem messageSize_eq (t : MessageType) : t.messageSize = 1 + fieldsSize t.fields := by
  cases t <;> rfl

theorem messageSize_pos (t : MessageType) : 0 < t.messageSize := by
  rw [messageSize_eq]
  omega

end MessageType

end TradingDesk.Itch
