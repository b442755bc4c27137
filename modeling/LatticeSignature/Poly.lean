import LatticeSignature.Residue
import LatticeSignature.Rounding
import LatticeSignature.Text.Record

/-!
# Polynomials

Elements of `ℤ_q[X]/(X^256 + 1)`, given by 256 representatives. The type records whether these are
the coefficients or the values at the roots of `X^256 + 1`, so that the two cannot be mixed up.

* `Poly d`: 256 numbers in the domain `d`, with `map` and `zipWith`.
* Addition, subtraction and reduction work in either domain; products are taken pointwise in the
  transformed one; rounding, hints and norms concern coefficients.
-/

namespace LatticeSignature

/-- What the 256 numbers of a polynomial are. -/
inductive Domain where
  /-- Its coefficients. -/
  | plain
  /-- Its values at the roots of `X^256 + 1`. -/
  | transformed
deriving DecidableEq

/-- A polynomial given by 256 numbers in the domain `d`. -/
@[ext]
structure Poly (d : Domain) where
  coeffs : Vector Int32 256
deriving DecidableEq

namespace Poly

variable {d : Domain}

instance : GetElem (Poly d) Nat Int32 fun _ i => i < 256 where
  getElem p i h := p.coeffs[i]

/-- The polynomial whose number at `i` is `f i`. -/
def ofFn (f : Fin 256 → Int32) : Poly d := ⟨.ofFn f⟩

/-- The polynomial that starts with the listed numbers and goes on with zeros. -/
def ofList (l : List Int32) : Poly d :=
  let a := l.toArray
  ofFn fun i => a.getD i 0

/-- The zero polynomial. -/
def zero : Poly d := ofFn fun _ => 0

instance : Zero (Poly d) := ⟨zero⟩

instance : Inhabited (Poly d) := ⟨zero⟩

/-- Applies a function to each number. -/
def map {e : Domain} (f : Int32 → Int32) (p : Poly d) : Poly e := ⟨p.coeffs.map f⟩

/-- Combines the numbers of two polynomials one by one. -/
def zipWith (f : Int32 → Int32 → Int32) (p r : Poly d) : Poly d :=
  ⟨Vector.zipWith f p.coeffs r.coeffs⟩

@[simp]
theorem getElem_coeffs (p : Poly d) (i : Nat) (h : i < 256) : p.coeffs[i] = p[i] := rfl

@[simp]
theorem getElem_ofFn (f : Fin 256 → Int32) (i : Nat) (h : i < 256) :
    (ofFn f : Poly d)[i] = f ⟨i, h⟩ := by
  simp [ofFn, ← getElem_coeffs]

@[simp]
theorem getElem_map {e : Domain} (f : Int32 → Int32) (p : Poly d) (i : Nat) (h : i < 256) :
    (p.map f : Poly e)[i] = f p[i] := by
  simp [map, ← getElem_coeffs]

@[simp]
theorem getElem_zipWith (f : Int32 → Int32 → Int32) (p r : Poly d) (i : Nat) (h : i < 256) :
    (p.zipWith f r)[i] = f p[i] r[i] := by
  simp [zipWith, ← getElem_coeffs]

/-- Two polynomials with the same numbers are equal. -/
theorem ext_getElem {p r : Poly d} (h : ∀ (i : Nat) (_ : i < 256), p[i] = r[i]) : p = r :=
  Poly.ext (Vector.ext h)

/-! ## In either domain -/

/-- The sum, without reduction. -/
def add (p r : Poly d) : Poly d := p.zipWith (· + ·) r

/-- The difference, without reduction. -/
def sub (p r : Poly d) : Poly d := p.zipWith (· - ·) r

instance : Add (Poly d) := ⟨add⟩

instance : Sub (Poly d) := ⟨sub⟩

/-- Brings each number near zero. -/
def reduce (p : Poly d) : Poly d := p.map Residue.reduce

/-- Adds `q` to each negative number. -/
def lift (p : Poly d) : Poly d := p.map Residue.lift

/-- Multiplies each number by `2 ^ 13`, without reduction. -/
def shiftLeft (p : Poly d) : Poly d := p.map (· <<< 13)

/-- What is left of a polynomial after wiping. -/
def wiped (_ : Poly d) : Poly d := 0

/-- Shows all numbers. -/
def description (p : Poly d) : String :=
  Record.closed "Poly" [("coeffs", Record.list (p.coeffs.toList.map fun c => toString c.toInt))]

/-- All absolute values are below `bound`; every number is looked at, whatever the others are.
A bound above `(q - 1) / 8` is never met. -/
def normBelow (p : Poly d) (bound : Int32) : Bool :=
  bound ≤ 1047552 &&
    p.coeffs.foldl (fun acc c => acc ||| Rounding.signBit (bound - 1 - Residue.magnitude c))
      (0 : UInt32) == 0

/-! ## Values at the roots -/

/-- The Montgomery product of the values. -/
def mulMontgomery (p r : Poly .transformed) : Poly .transformed :=
  p.zipWith Residue.mulMontgomery r

/-! ## Coefficients -/

/-- A polynomial in two parts. -/
structure Parts where
  high : Poly .plain
  low : Poly .plain
deriving DecidableEq

/-- Splits each coefficient at bit 13. -/
def power2Round (p : Poly .plain) : Parts :=
  ⟨p.map fun c => (Rounding.power2Round c).high, p.map fun c => (Rounding.power2Round c).low⟩

/-- Splits each coefficient at multiples of `2 · gamma2`. -/
def decompose (p : Poly .plain) : Parts :=
  ⟨p.map fun c => (Rounding.decompose c).high, p.map fun c => (Rounding.decompose c).low⟩

/-- The hints for low and high parts. -/
def makeHint (low high : Poly .plain) : Poly .plain := low.zipWith Rounding.makeHint high

/-- The high parts corrected by hints. -/
def useHint (p hint : Poly .plain) : Poly .plain := p.zipWith Rounding.useHint hint

/-- The sum of the coefficients, which for a hint is the number of its ones. -/
def total (p : Poly .plain) : Nat := p.coeffs.foldl (fun s c => s + c.toNatClampNeg) 0

/-- The number of nonzero coefficients. -/
def weight (p : Poly .plain) : Nat := p.coeffs.toList.countP (· != 0)

end Poly

end LatticeSignature
