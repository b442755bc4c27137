import LatticeSignature.Poly.Transform
import LatticeSignature.Poly.Sampler

/-!
# Vectors and the public matrix

Vectors of polynomials and the public `8 × 7` matrix, whose entries are sampled as values at the
roots. Operations on polynomials are lifted entry by entry.

* `collect?`: a vector of results that are all there.
* `PolyVec`: sums, transforms, rounding, hints and norms of vectors.
* `Matrix.expand`, `Matrix.mul`: the matrix of a seed, and its product with a vector.
-/

namespace LatticeSignature

/-- The vector of all `f i`, if none of them is missing. -/
def collect? {α : Type} {n : Nat} (f : Fin n → Option α) : Option (Vector α n) :=
  let found := Vector.ofFn f
  if h : ∀ i : Fin n, found[i].isSome then some (.ofFn fun i => found[i].get (h i)) else none

/-- `collect?` returns exactly the vector whose entries are the results. -/
theorem collect?_eq_some_iff {α : Type} {n : Nat} {f : Fin n → Option α} {v : Vector α n} :
    collect? f = some v ↔ ∀ i : Fin n, f i = some v[i] := by
  simp only [collect?]
  split
  · rename_i h
    simp only [Option.some.injEq]
    constructor
    · rintro rfl i
      simp
    · intro hv
      apply Vector.ext
      intro i hi
      simp [hv ⟨i, hi⟩]
  · rename_i h
    simp only [reduceCtorEq, false_iff]
    intro hv
    apply h
    intro i
    simp [hv i]

/-- `n` polynomials in the domain `d`. -/
abbrev PolyVec (d : Domain) (n : Nat) := Vector (Poly d) n

namespace PolyVec

variable {d : Domain} {n : Nat}

/-- The zero vector. -/
def zero : PolyVec d n := .replicate n 0

/-- What is left of a vector after wiping. -/
def wiped (_ : PolyVec d n) : PolyVec d n := zero

/-- Entrywise sum. -/
def add (u v : PolyVec d n) : PolyVec d n := Vector.zipWith Poly.add u v

/-- Entrywise difference. -/
def sub (u v : PolyVec d n) : PolyVec d n := Vector.zipWith Poly.sub u v

/-- Brings each number near zero. -/
def reduce (v : PolyVec d n) : PolyVec d n := Vector.map Poly.reduce v

/-- Adds `q` to each negative number. -/
def lift (v : PolyVec d n) : PolyVec d n := Vector.map Poly.lift v

/-- Multiplies each number by `2 ^ 13`. -/
def shiftLeft (v : PolyVec d n) : PolyVec d n := Vector.map Poly.shiftLeft v

/-- All absolute values are below `bound`. -/
def normBelow (v : PolyVec d n) (bound : Int32) : Bool :=
  Vector.foldl (fun ok p => ok && Poly.normBelow p bound) true v

/-- The values of each entry at the roots. -/
def transform (v : PolyVec .plain n) : PolyVec .transformed n := Vector.map Poly.transform v

/-- The coefficients of each entry, times `2 ^ 32`. -/
def inverseTransform (v : PolyVec .transformed n) : PolyVec .plain n :=
  Vector.map Poly.inverseTransform v

/-- Multiplies each entry by one polynomial. -/
def scale (p : Poly .transformed) (v : PolyVec .transformed n) : PolyVec .transformed n :=
  Vector.map (Poly.mulMontgomery p) v

/-- The sum of the products of entries, without reduction. -/
def dot (u v : PolyVec .transformed n) : Poly .transformed :=
  Vector.foldl Poly.add 0 (Vector.zipWith Poly.mulMontgomery u v)

/-- A vector in two parts. -/
structure Parts (n : Nat) where
  high : PolyVec .plain n
  low : PolyVec .plain n

/-- Splits each coefficient at bit 13. -/
def power2Round (v : PolyVec .plain n) : Parts n :=
  let parts := Vector.map Poly.power2Round v
  ⟨parts.map Poly.Parts.high, parts.map Poly.Parts.low⟩

/-- Splits each coefficient at multiples of `2 · gamma2`. -/
def decompose (v : PolyVec .plain n) : Parts n :=
  let parts := Vector.map Poly.decompose v
  ⟨parts.map Poly.Parts.high, parts.map Poly.Parts.low⟩

/-- The hints for low and high parts. -/
def makeHint (low high : PolyVec .plain n) : PolyVec .plain n :=
  Vector.zipWith Poly.makeHint low high

/-- The high parts corrected by hints. -/
def useHint (v hint : PolyVec .plain n) : PolyVec .plain n := Vector.zipWith Poly.useHint v hint

/-- The sum of all coefficients, which for a hint is the number of its ones. -/
def total (v : PolyVec .plain n) : Nat := Vector.foldl (fun s p => s + Poly.total p) 0 v

/-- The number of nonzero coefficients. -/
def weight (v : PolyVec .plain n) : Nat := Vector.foldl (fun s p => s + Poly.weight p) 0 v

/-- The packed entries one after the other. -/
def pack {w : Nat} (form : PackedForm w) (v : PolyVec .plain n) : ByteString (n * (32 * w)) :=
  .flatten (Vector.map (Poly.pack form) v)

/-- The entries of a vector packed from position `start` of a byte string on. -/
def unpack {w : Nat} (form : PackedForm w) (n start : Nat) (b : Bytes) : PolyVec .plain n :=
  .ofFn fun i => Poly.unpack form ((b.drop (start + i.val * (32 * w))).take (32 * w))

/-- Writes the packed high parts into a buffer, entry by entry as long as a whole one fits. -/
def packW1Into : (entries : List (Poly .plain)) → (buffer : Bytes) → Bytes
  | [], buffer => buffer
  | p :: ps, buffer =>
    if 128 ≤ buffer.length then (Poly.pack .w1 p).bytes ++ packW1Into ps (buffer.drop 128)
    else buffer

/-! ## Sampled vectors -/

/-- Short secrets, the nonces counting up from `nonce`. -/
def uniformEta (O : Oracle) (n : Nat) (seed : Bytes) (nonce : UInt16) :
    Option (PolyVec .plain n) :=
  collect? fun i => Poly.uniformEta O seed (nonce + i.val.toUInt16)

/-- The mask of a signing round: round `nonce` uses seven nonces of its own, modulo `2 ^ 16`. -/
def uniformGamma1 (O : Oracle) (seed : Bytes) (nonce : UInt16) : PolyVec .plain 7 :=
  .ofFn fun i => Poly.uniformGamma1 O seed (7 * nonce + i.val.toUInt16)

end PolyVec

/-- The public matrix, by rows. -/
abbrev Matrix := Vector (PolyVec .transformed 7) 8

namespace Matrix

/-- The matrix of a seed: entry `(i, j)` has nonce `256 i + j`. -/
def expand (O : Oracle) (rho : Bytes) : Option Matrix :=
  collect? fun i => collect? fun j => Poly.uniform O rho (256 * i.val + j.val).toUInt16

/-- The product with a vector, row by row. -/
def mul (A : Matrix) (v : PolyVec .transformed 7) : PolyVec .transformed 8 :=
  Vector.map (fun row => PolyVec.dot row v) A

end Matrix

end LatticeSignature
