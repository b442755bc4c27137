import LatticeSignature.Poly
import LatticeSignature.BitStream

/-!
# Packed polynomials

The five forms in which polynomials are stored: each coefficient becomes a number of a fixed
width, and the 256 numbers become a bit stream.

* `PackedForm w`: the map between coefficients and stored numbers of `w` bits. It is its own
  inverse, either the identity or the difference to an offset.
* `Poly.pack`, `Poly.unpack`: a polynomial to `32 · w` bytes and back. A coefficient outside the
  range of the form loses its high bits.
-/

namespace LatticeSignature

open Params

/-- How coefficients are stored in `w` bits each. -/
structure PackedForm (w : Nat) where
  /-- The stored number of a coefficient, and the coefficient of a stored number. -/
  code : Int32 → Int32
  code_code : ∀ c, code (code c) = c := by intro c; grind

namespace PackedForm

/-- High part of the public vector: coefficients in `[0, 1023]`. -/
def t1 : PackedForm 10 := { code := fun c => c }

/-- Low part of the public vector: coefficients in `(-4096, 4096]`. -/
def t0 : PackedForm Params.droppedBits := { code := fun c => 4096 - c }

/-- Short secrets: coefficients in `[-2, 2]`. Three bits also hold `-5`, `-4` and `-3`. -/
def eta : PackedForm 3 := { code := fun c => Params.eta - c }

/-- Masks and responses: coefficients in `(-gamma1, gamma1]`. -/
def z : PackedForm 20 := { code := fun c => gamma1 - c }

/-- High parts of a commitment: coefficients in `[0, 15]`. -/
def w1 : PackedForm 4 := { code := fun c => c }

end PackedForm

namespace Poly

/-- The bytes of a polynomial. -/
def pack {w : Nat} (form : PackedForm w) (p : Poly .plain) : ByteString (32 * w) :=
  ⟨BitStream.pack w (p.coeffs.toList.map fun c => (form.code c).toUInt32.toNat), by
    simp [BitStream.length_pack]; omega⟩

/-- The polynomial that the first `32 · w` bytes hold. -/
def unpack {w : Nat} (form : PackedForm w) (b : Bytes) : Poly .plain :=
  .ofList ((BitStream.unpack w 256 b).map fun v => form.code (Int32.ofNat v))

/-- The polynomial that the first `32 · w` bytes hold, if there are that many. -/
def unpack? {w : Nat} (form : PackedForm w) (b : Bytes) : Option (Poly .plain) :=
  if 32 * w ≤ b.length then some (unpack form b) else none

end Poly

end LatticeSignature
