import Mathlib.Data.Rat.Floor

/-!
# TradingDesk.Core.Double

**The floating-point operations applied to prices.** The programs convert
integers to `double`, multiply, divide and truncate back. Which numbers these
operations return is left open (`DoubleArith`), so what is proved over it holds
for IEEE arithmetic in any rounding mode as well as for exact arithmetic; `Rat`
is the exact reading.
-/

namespace TradingDesk.Core

/-- The operations on `double` values. -/
class DoubleArith (F : Type) where
  /-- Conversion from a 32-bit unsigned integer. -/
  ofUInt32 : UInt32 → F
  /-- Multiplication. -/
  mul : F → F → F
  /-- Division. -/
  div : F → F → F
  /-- Conversion to a 32-bit unsigned integer, dropping the fraction. -/
  toUInt32 : F → UInt32

/-- Exact rational arithmetic. A value whose integer part is no 32-bit integer
has no defined conversion in the source language; here it wraps around. -/
instance : DoubleArith Rat where
  ofUInt32 v := v.toNat
  mul p q := p * q
  div p q := p / q
  toUInt32 p := UInt32.ofNat ⌊p⌋.toNat

end TradingDesk.Core
