import Mathlib.Data.Nat.Digits.Defs

/-!
# TradingDesk.Core.Bytes

**Integers in memory.** `toBytes w v` are the `w` bytes of `v`, least significant
first, and `ofBytes` reads them back. A host loads and stores its integers in its
own `ByteOrder`; the conversions between the native order and a wire order are
byte swaps on one kind of host and do nothing on the other.
-/

namespace TradingDesk.Core

/-! ### Fixed-width byte strings -/

/-- The `w` low bytes of `v`, least significant first. -/
def toBytes : Nat → Nat → List UInt8
  | 0, _ => []
  | w + 1, v => UInt8.ofNat (v % 256) :: toBytes w (v / 256)

/-- The integer whose bytes are `bs`, least significant first. -/
def ofBytes (bs : List UInt8) : Nat := Nat.ofDigits 256 (bs.map UInt8.toNat)

@[simp] theorem length_toBytes (w v : Nat) : (toBytes w v).length = w := by
  induction w generalizing v with
  | zero => rfl
  | succ w ih => rw [toBytes, List.length_cons, ih]

@[simp] theorem ofBytes_nil : ofBytes [] = 0 := rfl

theorem ofBytes_cons (b : UInt8) (bs : List UInt8) :
    ofBytes (b :: bs) = b.toNat + 256 * ofBytes bs := by
  rw [ofBytes, List.map_cons, Nat.ofDigits_cons]
  rfl

theorem ofBytes_append (as bs : List UInt8) :
    ofBytes (as ++ bs) = ofBytes as + 256 ^ as.length * ofBytes bs := by
  rw [ofBytes, List.map_append, Nat.ofDigits_append, List.length_map]
  rfl

theorem ofBytes_lt (bs : List UInt8) : ofBytes bs < 256 ^ bs.length := by
  have h := Nat.ofDigits_lt_base_pow_length (b := 256) (l := bs.map UInt8.toNat)
    (by norm_num) fun x hx => by
      obtain ⟨b, -, rfl⟩ := List.mem_map.mp hx
      exact b.toNat_lt
  rwa [List.length_map] at h

theorem ofBytes_toBytes {w v : Nat} (h : v < 256 ^ w) : ofBytes (toBytes w v) = v := by
  induction w generalizing v with
  | zero => rw [pow_zero, Nat.lt_one_iff] at h; rw [h]; rfl
  | succ w ih =>
      have hdiv : v / 256 < 256 ^ w := by
        rw [Nat.div_lt_iff_lt_mul (by norm_num), ← pow_succ]
        exact h
      have hbyte : (UInt8.ofNat (v % 256)).toNat = v % 256 :=
        UInt8.toNat_ofNat_of_lt' (Nat.mod_lt _ (by norm_num))
      rw [toBytes, ofBytes_cons, ih hdiv, hbyte]
      exact Nat.mod_add_div v 256

theorem toBytes_ofBytes (bs : List UInt8) : toBytes bs.length (ofBytes bs) = bs := by
  induction bs with
  | nil => rfl
  | cons b bs ih =>
      have hmod : (b.toNat + 256 * ofBytes bs) % 256 = b.toNat := by
        rw [Nat.add_mul_mod_self_left, Nat.mod_eq_of_lt b.toNat_lt]
      have hdiv : (b.toNat + 256 * ofBytes bs) / 256 = ofBytes bs := by
        have := b.toNat_lt
        omega
      rw [ofBytes_cons, List.length_cons, toBytes, hmod, hdiv, ih, UInt8.ofNat_toNat]

/-- The integer whose bytes are `bs`, most significant first. -/
def ofBytesBE (bs : List UInt8) : Nat := ofBytes bs.reverse

theorem ofBytesBE_lt (bs : List UInt8) : ofBytesBE bs < 256 ^ bs.length := by
  simpa [ofBytesBE] using ofBytes_lt bs.reverse

/-- Byte strings of one length are told apart by their integers. -/
theorem ofBytes_inj {as bs : List UInt8} (hlen : as.length = bs.length)
    (h : ofBytes as = ofBytes bs) : as = bs := by
  rw [← toBytes_ofBytes as, h, hlen, toBytes_ofBytes]

theorem ofBytesBE_inj {as bs : List UInt8} (hlen : as.length = bs.length)
    (h : ofBytesBE as = ofBytesBE bs) : as = bs :=
  List.reverse_inj.mp (ofBytes_inj (by simpa using hlen) h)

/-! ### Hosts -/

/-- The order in which a host keeps the bytes of an integer in memory. -/
inductive ByteOrder
  /-- Least significant byte first. -/
  | little
  /-- Most significant byte first. -/
  | big
  deriving Repr, DecidableEq

namespace ByteOrder

/-- Read an integer through a pointer. -/
def load : ByteOrder → List UInt8 → Nat
  | little, bs => ofBytes bs
  | big, bs => ofBytesBE bs

/-- The bytes written by storing a `w`-byte integer through a pointer. -/
def store : ByteOrder → Nat → Nat → List UInt8
  | little, w, v => toBytes w v
  | big, w, v => (toBytes w v).reverse

/-- Exchange the byte order of a `w`-byte integer. -/
def byteSwap (w v : Nat) : Nat := ofBytesBE (toBytes w v)

/-- Convert a `w`-byte integer from big-endian to the host's order. -/
def bigToNative : ByteOrder → Nat → Nat → Nat
  | little, w, v => byteSwap w v
  | big, _, v => v

/-- Convert a `w`-byte integer from the host's order to little-endian. -/
def nativeToLittle : ByteOrder → Nat → Nat → Nat
  | little, _, v => v
  | big, w, v => byteSwap w v

/-- A big-endian field reads as its big-endian value on every host. -/
theorem bigToNative_load (host : ByteOrder) {w : Nat} {bs : List UInt8} (h : bs.length = w) :
    host.bigToNative w (host.load bs) = ofBytesBE bs := by
  subst h
  cases host with
  | little => simp only [bigToNative, load, byteSwap, toBytes_ofBytes]
  | big => rfl

/-- Swapping the bytes of an integer reverses its representation. -/
theorem toBytes_byteSwap (w v : Nat) : toBytes w (byteSwap w v) = (toBytes w v).reverse := by
  simpa [byteSwap, ofBytesBE] using toBytes_ofBytes (toBytes w v).reverse

theorem byteSwap_lt (w v : Nat) : byteSwap w v < 256 ^ w := by
  simpa [byteSwap] using ofBytesBE_lt (toBytes w v)

theorem byteSwap_byteSwap {w v : Nat} (h : v < 256 ^ w) : byteSwap w (byteSwap w v) = v := by
  rw [byteSwap, toBytes_byteSwap, ofBytesBE, List.reverse_reverse, ofBytes_toBytes h]

/-- What a host writes through `nativeToLittle` are the little-endian bytes. -/
theorem store_nativeToLittle (host : ByteOrder) (w v : Nat) :
    host.store w (host.nativeToLittle w v) = toBytes w v := by
  cases host with
  | little => rfl
  | big => rw [store, nativeToLittle, toBytes_byteSwap, List.reverse_reverse]

/-- A host that loads little-endian bytes as they are gets what `nativeToLittle` makes of
the integer. -/
theorem load_toBytes (host : ByteOrder) {w v : Nat} (h : v < 256 ^ w) :
    host.load (toBytes w v) = host.nativeToLittle w v := by
  cases host with
  | little => exact ofBytes_toBytes h
  | big => rfl

end ByteOrder

end TradingDesk.Core
