import LatticeSignature.Params

/-!
# Residues modulo `q`

Residue classes are handled through 32-bit representatives that need not lie in `[0, q)`: sums are
taken without reduction while they fit, and brought back by one of three functions, none of which
branches on its operand.

* `Residue.montgomery`: a representative of `a · 2⁻³²`.
* `Residue.reduce`: a representative near zero.
* `Residue.lift`: adds `q` to a negative representative.
* `Residue.magnitude`: the absolute value of a representative.
-/

namespace LatticeSignature.Residue

open Params

/-- The inverse of `q` modulo `2 ^ 32`. -/
def qInverse : Int32 := 58728449

/-- A representative of `2 ^ 32` modulo `q`. -/
def montgomeryOne : Int32 := -4186625

/-- Divides by `2 ^ 32` modulo `q`: the multiple of `q` that agrees with `a` in the low half is
taken away, so that the shift is exact. The factor `t` is computed modulo `2 ^ 32`. -/
def montgomery (a : Int64) : Int32 :=
  let t : Int32 := a.toInt32 * qInverse
  ((a - t.toInt64 * q.toInt64) >>> 32).toInt32

/-- The Montgomery product of two representatives. -/
def mulMontgomery (a b : Int32) : Int32 := montgomery (a.toInt64 * b.toInt64)

/-- Takes away the multiple of `q` that rounding `a / 2 ^ 23` suggests. -/
def reduce (a : Int32) : Int32 :=
  let t := (a + 4194304) >>> 23
  a - t * q

/-- Adds `q` if `a` is negative; the sign bit serves as a mask. -/
def lift (a : Int32) : Int32 := a + ((a >>> 31) &&& q)

/-- The absolute value: twice a negative number is taken away from it. -/
def magnitude (a : Int32) : Int32 := a - ((a >>> 31) &&& (2 * a))

end LatticeSignature.Residue
