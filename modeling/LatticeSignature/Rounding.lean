import LatticeSignature.Params

/-!
# High bits, low bits and hints

Two ways to split a coefficient into a high and a low part, and the one-bit hint that lets a
verifier recover the high part of a value it knows only up to a small error. All of it is
arithmetic on signs and masks, without branches on the operands.

* `power2Round`: `a = 2 ^ 13 · high + low`.
* `decompose`: `a = 2 · gamma2 · high + low` modulo `q`, with 16 values of `high`.
* `makeHint`, `useHint`: whether adding a small value changes the high part, and the correction.
-/

namespace LatticeSignature

open Params

/-- A coefficient in two parts. -/
structure HighLow where
  high : Int32
  low : Int32
deriving DecidableEq

namespace Rounding

/-- Splits off the low 13 bits, rounding to the nearest multiple. -/
def power2Round (a : Int32) : HighLow :=
  let high := (a + 4096 - 1) >>> 13
  ⟨high, a - (high <<< 13)⟩

/-- Divides by `2 · gamma2`, rounding to the nearest multiple; the topmost bucket is folded into
the lowest one, where `low` is taken relative to `q`. The quotient comes from a multiplication and
a shift. -/
def decompose (a : Int32) : HighLow :=
  let scaled := (a + 127) >>> 7
  let high := ((scaled * 1025 + 2097152) >>> 22) &&& 15
  let low := a - high * 2 * gamma2
  ⟨high, low - (((4190208 - low) >>> 31) &&& q)⟩

/-- The sign bit: 1 for a negative number and 0 otherwise. -/
def signBit (a : Int32) : UInt32 := a.toUInt32 >>> 31

/-- 1 for a number other than zero and 0 for zero. -/
def nonzeroBit (a : Int32) : UInt32 := signBit (a ||| -a)

/-- 1 if `low` has left the range of low parts that belong to the bucket `high`. -/
def makeHint (low high : Int32) : Int32 :=
  let above := signBit (gamma2 - low)
  let below := signBit (low + gamma2)
  let atLowerEdge := 1 ^^^ nonzeroBit (low + gamma2)
  ((above ||| below ||| (atLowerEdge &&& nonzeroBit high)) &&& 1).toInt32

/-- The high part of `a`, moved to the neighbouring bucket on the side of the low part if the hint
is set. -/
def useHint (a hint : Int32) : Int32 :=
  let parts := decompose a
  let up := (parts.high + 1) &&& 15
  let down := (parts.high - 1) &&& 15
  let hintMask := -(nonzeroBit hint).toInt32
  let positiveMask := -(signBit (-parts.low)).toInt32
  (parts.high &&& ~~~hintMask) ||| (up &&& (hintMask &&& positiveMask)) |||
    (down &&& (hintMask &&& ~~~positiveMask))

end Rounding

end LatticeSignature
