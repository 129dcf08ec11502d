import Mathlib.Tactic.NormNum
import TradingDesk.Itch.Decode

/-!
# TradingDesk.Itch.Layout

**The eleven layouts, field by field.** `wireValue` is what a field's bytes stand for:
big-endian integers, a price in ten-thousandths, text without regard to case. Every
field of a decoded message is the wire value of the bytes at the field's offset, and the
bytes can be told from the values, up to the code and the case of letters.

Prices are read as exact rationals here.
-/

namespace TradingDesk.Itch

open TradingDesk.Core

/-! ### Fields at their offsets -/

section Offsets

variable {F : Type} [DoubleArith F]

theorem length_parseFields (bs : List UInt8) (fs : List Field) :
    (parseFields (F := F) bs fs).length = fs.length := by
  induction fs generalizing bs with
  | nil => rfl
  | cons f fs ih => rw [parseFields, List.length_cons, List.length_cons, ih]

/-- A field is cut off behind the fields before it. -/
theorem getElem?_parseFields (bs : List UInt8) (fs : List Field) (i : Nat) :
    (parseFields (F := F) bs fs)[i]? = fs[i]?.map fun f =>
      parseField ((bs.drop (fieldsSize (fs.take i))).take f.kind.storedSize) f.kind := by
  induction fs generalizing bs i with
  | nil => rfl
  | cons f fs ih =>
      cases i with
      | zero => rfl
      | succ i =>
          rw [parseFields, List.getElem?_cons_succ, ih, List.getElem?_cons_succ,
            List.take_succ_cons, fieldsSize_cons]
          simp only [List.drop_drop]

end Offsets

/-- The fields up to and with one of them are within the message. -/
theorem fieldsSize_take_le {fs : List Field} {i : Nat} {f : Field} (h : fs[i]? = some f) :
    fieldsSize (fs.take i) + f.kind.storedSize ≤ fieldsSize fs := by
  induction fs generalizing i with
  | nil => simp at h
  | cons g fs ih =>
      cases i with
      | zero =>
          obtain rfl : g = f := by simpa using h
          rw [List.take_zero, fieldsSize_nil, fieldsSize_cons]
          omega
      | succ i =>
          have := ih (i := i) (by simpa using h)
          rw [List.take_succ_cons, fieldsSize_cons, fieldsSize_cons]
          omega

/-! ### What the bytes stand for -/

/-- The value of a field with the bytes `bs` on the wire. -/
def wireValue (bs : List UInt8) : FieldKind → FieldValue ℚ
  | .integer _ => .integer (ofBytesBE bs)
  | .timestamp => .timestamp (ofBytesBE bs)
  | .char => .char (bs.headD 0)
  | .text _ => .text (bs.map toLower)
  | .price => .price ((ofBytesBE bs : ℚ) / 10000)

/-- The denominator of a price with four decimals is 10000. -/
theorem priceValue_rat {v : Nat} (h : v < 2 ^ 32) : priceValue (F := ℚ) v = (v : ℚ) / 10000 := by
  have hv : (UInt32.ofNat v).toNat = v := UInt32.toNat_ofNat_of_lt' h
  have hten : ((UInt32.toNat 10 : Nat) : ℚ) = 10 := rfl
  show ((UInt32.ofNat v).toNat : ℚ) / computeDen ((UInt32.toNat 10 : Nat) : ℚ) 4 = _
  rw [hv, hten]
  show (v : ℚ) / (10 * (10 * (10 * 10))) = _
  norm_num

theorem parseField_eq_wireValue {bs : List UInt8} {k : FieldKind} (h : bs.length = k.storedSize) :
    parseField bs k = wireValue bs k := by
  cases k with
  | integer w | timestamp | char | text n => rfl
  | price =>
      have hlt : ofBytesBE bs < 2 ^ 32 := by
        have hbound := ofBytesBE_lt bs
        rw [h] at hbound
        exact hbound
      rw [parseField, wireValue, priceValue_rat hlt]

/-- The integers of the messages have two, four or eight bytes, the texts two, four or
eight characters. -/
theorem MessageType.kind_mem (t : MessageType) : ∀ f ∈ t.fields, f.kind ∈
    [.integer 2, .integer 4, .integer 8, .timestamp, .char, .text 2, .text 4, .text 8, .price] := by
  cases t <;> decide

/-! ### Back from the values to the bytes -/

/-- The same byte, or one letter in its two cases. -/
def SameLetter (b b' : UInt8) : Prop :=
  b = b' ∨ (('A'.toUInt8 ≤ b ∧ b ≤ 'Z'.toUInt8) ∧ b' = b + 32) ∨
    (('A'.toUInt8 ≤ b' ∧ b' ≤ 'Z'.toUInt8) ∧ b = b' + 32)

theorem sameLetter_of_toLower {b b' : UInt8} (h : toLower b = toLower b') : SameLetter b b' := by
  unfold toLower at h
  unfold SameLetter
  by_cases hb : 'A'.toUInt8 ≤ b ∧ b ≤ 'Z'.toUInt8
  · by_cases hb' : 'A'.toUInt8 ≤ b' ∧ b' ≤ 'Z'.toUInt8
    · rw [if_pos hb, if_pos hb'] at h
      exact Or.inl ((UInt8.add_left_inj 32).mp h)
    · rw [if_pos hb, if_neg hb'] at h
      exact Or.inr (Or.inl ⟨hb, h.symm⟩)
  · by_cases hb' : 'A'.toUInt8 ≤ b' ∧ b' ≤ 'Z'.toUInt8
    · rw [if_neg hb, if_pos hb'] at h
      exact Or.inr (Or.inr ⟨hb', h⟩)
    · rw [if_neg hb, if_neg hb'] at h
      exact Or.inl h

/-- Two slices of the same field: text may differ in the case of letters, anything else
is the same. -/
def SameSlice (bs bs' : List UInt8) : FieldKind → Prop
  | .text _ => List.Forall₂ SameLetter bs bs'
  | _ => bs = bs'

theorem sameSlice_of_wireValue {bs bs' : List UInt8}
    {k : FieldKind} (hlen : bs.length = k.storedSize)
    (hlen' : bs'.length = k.storedSize) (h : wireValue bs k = wireValue bs' k) :
    SameSlice bs bs' k := by
  have heq : bs.length = bs'.length := hlen.trans hlen'.symm
  cases k with
  | integer w => exact ofBytesBE_inj heq (FieldValue.integer.inj h)
  | timestamp => exact ofBytesBE_inj heq (FieldValue.timestamp.inj h)
  | char =>
      obtain ⟨b, rfl⟩ := List.length_eq_one_iff.mp hlen
      obtain ⟨b', rfl⟩ := List.length_eq_one_iff.mp hlen'
      exact congrArg (fun b => [b]) (FieldValue.char.inj h)
  | text n =>
      have hmap : List.Forall₂ (· = ·) (bs.map toLower) (bs'.map toLower) := by
        rw [List.forall₂_eq_eq_eq]
        exact FieldValue.text.inj h
      have hlower := List.forall₂_map_right_iff.mp (List.forall₂_map_left_iff.mp hmap)
      exact hlower.imp fun _ _ => sameLetter_of_toLower
  | price =>
      have hquot := FieldValue.price.inj h
      rw [div_left_inj' (by norm_num)] at hquot
      exact ofBytesBE_inj heq (by exact_mod_cast hquot)

/-! ### `decode` -/

/-- The bytes of the `i`-th field of the message body at the cursor. -/
def fieldBytes (mem : Memory) (c : Cursor) (fs : List Field) (i : Nat) (f : Field) : List UInt8 :=
  mem.bytes (c.p + 1 + fieldsSize (fs.take i)) f.kind.storedSize

/-- What `decode` makes of a body that is there in full. -/
theorem MessageType.decode_values {mem : Memory} {t : MessageType} {c : Cursor}
    (hl : t.messageSize ≤ c.l) {i : Nat} {f : Field} (hf : t.fields[i]? = some f) :
    (t.decode (F := ℚ) .little mem c).2.1.values[i]?
      = some (wireValue (fieldBytes mem c t.fields i f) f.kind) := by
  have hcut := mem.take_drop_bytes (c.p + 1) (fieldsSize_take_le hf)
  rw [MessageType.decode_eq hl rfl]
  dsimp only
  rw [getElem?_parseFields, hf, Option.map_some, hcut]
  exact congrArg some (parseField_eq_wireValue (mem.length_bytes _ _))

/-- **Exact decoding.** On a little-endian host, for every message type and every
buffer: `decode` succeeds exactly if the message's size is left, and otherwise leaves the
cursor alone; where it succeeds it consumes that size, and every field, in declaration
order, has the wire value of its bytes (integers have two, four or eight of them); and
two bodies that decode to the same message have the same type and the same bytes behind
the code, up to the case of the letters in text fields. -/
theorem decodes_exactly (t : MessageType) (mem : Memory) (c : Cursor) :
    (∀ f ∈ t.fields, f.kind ∈
      [.integer 2, .integer 4, .integer 8, .timestamp, .char, .text 2, .text 4, .text 8, .price]) ∧
    ((t.decode (F := ℚ) .little mem c).1 = true ↔ t.messageSize ≤ c.l) ∧
    (¬ t.messageSize ≤ c.l → (t.decode (F := ℚ) .little mem c).2.2 = c) ∧
    (t.messageSize ≤ c.l →
      (t.decode (F := ℚ) .little mem c).2.2 = c.skip t.messageSize ∧
      (t.decode (F := ℚ) .little mem c).2.1.type = t ∧
      (t.decode (F := ℚ) .little mem c).2.1.values.length = t.fields.length ∧
      ∀ i f, t.fields[i]? = some f → (t.decode (F := ℚ) .little mem c).2.1.values[i]?
        = some (wireValue (fieldBytes mem c t.fields i f) f.kind)) ∧
    ∀ (t' : MessageType) (mem' : Memory) (c' : Cursor),
      t.messageSize ≤ c.l → t'.messageSize ≤ c'.l →
      (t.decode (F := ℚ) .little mem c).2.1 = (t'.decode .little mem' c').2.1 →
      t = t' ∧ ∀ i f, t.fields[i]? = some f →
        SameSlice (fieldBytes mem c t.fields i f) (fieldBytes mem' c' t.fields i f) f.kind := by
  have hcur := t.decode_snd_snd (F := ℚ) .little mem c
  refine ⟨t.kind_mem, MessageType.decode_fst, ?_, ?_, ?_⟩
  · intro hl
    rw [hcur, if_pos (by omega)]
  · intro hl
    refine ⟨by rw [hcur, if_neg (by omega)], ?_, ?_, fun i f => MessageType.decode_values hl⟩
    · rw [MessageType.decode_eq hl rfl]
    · rw [MessageType.decode_eq hl rfl]
      exact length_parseFields _ _
  · intro t' mem' c' hl hl' hsame
    obtain rfl : t = t' := by
      rw [MessageType.decode_eq hl rfl, MessageType.decode_eq hl' rfl] at hsame
      exact (Message.mk.inj hsame).1
    refine ⟨rfl, fun i f hf => ?_⟩
    -- one value, read from either body
    have hvalue : (t.decode (F := ℚ) .little mem c).2.1.values[i]?
        = some (wireValue (fieldBytes mem c t.fields i f) f.kind) := MessageType.decode_values hl hf
    rw [hsame, MessageType.decode_values hl' hf] at hvalue
    exact sameSlice_of_wireValue (mem.length_bytes _ _) (mem'.length_bytes _ _)
      (Option.some.inj hvalue).symm

end TradingDesk.Itch
