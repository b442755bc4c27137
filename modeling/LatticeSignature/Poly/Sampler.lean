import LatticeSignature.Poly.Packed
import LatticeSignature.Xof

/-!
# Sampling polynomials

Polynomials read off the streams of an extendable-output function. Candidates that are out of range
are skipped, so a sampler fetches further blocks until the polynomial is complete; it gives up with
`none` only if the limit of the oracle is reached first.

* `Poly.uniform`: entries of the public matrix, three bytes a candidate.
* `Poly.uniformEta`: short secrets, half a byte a candidate.
* `Poly.uniformGamma1`: masks, read as a packed polynomial, without rejection.
* `Poly.challenge`: 60 signs at positions drawn by an in-place shuffle.
-/

namespace LatticeSignature

open Params

namespace Sampler

/-! ## Candidates in a buffer -/

/-- The candidate that three bytes hold, low byte first, without the top bit. -/
def uniformCandidate (a b c : UInt8) : Int32 :=
  ((a.toUInt32 ||| (b.toUInt32 <<< 8) ||| (c.toUInt32 <<< 16)) &&& 0x7fffff).toInt32

/-- The candidates below `q` among successive triples of bytes, at most `room` of them. -/
def acceptUniform : Nat → Bytes → List Int32
  | 0, _ => []
  | room + 1, a :: b :: c :: rest =>
    let t := uniformCandidate a b c
    if t < q then t :: acceptUniform room rest else acceptUniform (room + 1) rest
  | _ + 1, _ => []

/-- The two halves of each byte, the low one first. -/
def nibbles (buf : Bytes) : Bytes := buf.flatMap fun b => [b &&& 0x0f, b >>> 4]

/-- The short coefficient of a half byte below 15: 2 less its residue modulo 5, the quotient being
found by a multiplication and a shift. -/
def etaCoefficient (t : UInt8) : Int32 :=
  let t := t.toUInt32
  (2 : Int32) - (t - ((205 * t) >>> 10) * 5).toInt32

/-- The coefficients of the half bytes below 15, at most `room` of them. -/
def acceptEta : Nat → Bytes → List Int32
  | 0, _ => []
  | _ + 1, [] => []
  | room + 1, t :: ts =>
    if t < 15 then etaCoefficient t :: acceptEta room ts else acceptEta (room + 1) ts

/-- Writes `found` to the front of `a`. -/
def writeFront (a found : List Int32) : List Int32 := found ++ a.drop found.length

/-- Fills `a` from the front with matrix candidates of a buffer; the number of those written and
the list afterwards. -/
def fillUniform (a : List Int32) (buf : Bytes) : Nat × List Int32 :=
  let found := acceptUniform a.length buf
  (found.length, writeFront a found)

/-- Fills `a` from the front with short coefficients of a buffer; the number of those written and
the list afterwards. -/
def fillEta (a : List Int32) (buf : Bytes) : Nat × List Int32 :=
  let found := acceptEta a.length (nibbles buf)
  (found.length, writeFront a found)

/-! ## Candidates in a stream -/

/-- The bytes of a buffer behind its last whole triple. -/
def carry (buf : Bytes) : Bytes := buf.drop (buf.length - buf.length % 3)

/-- Extends `found` to 256 matrix candidates, block by block; `rest` holds the bytes of the last
buffer that do not make up a triple. -/
def moreUniform (X : Xof shake128Rate) : Nat → X.State → Bytes → List Int32 → Option (List Int32)
  | 0, _, _, found => if found.length < degree then none else some found
  | fuel + 1, s, rest, found =>
    if found.length < degree then
      let buf := rest ++ (X.block s).toList
      moreUniform X fuel (X.next s) (carry buf) (found ++ acceptUniform (degree - found.length) buf)
    else some found

/-- Extends `found` to 256 short coefficients, block by block. -/
def moreEta (X : Xof shake256Rate) : Nat → X.State → List Int32 → Option (List Int32)
  | 0, _, found => if found.length < degree then none else some found
  | fuel + 1, s, found =>
    if found.length < degree then
      moreEta X fuel (X.next s)
        (found ++ acceptEta (degree - found.length) (nibbles (X.block s).toList))
    else some found

/-! ## The shuffle -/

/-- The next byte of a stream that is at most `i`, with the state and the bytes behind it. -/
def nextAtMost (X : Xof shake256Rate) (i : Nat) : Nat → X.State → Bytes →
    Option (UInt8 × X.State × Bytes)
  | fuel, s, pending =>
    match pending.dropWhile (fun b => i < b.toNat), fuel with
    | b :: rest, _ => some (b, s, rest)
    | [], 0 => none
    | [], fuel + 1 => nextAtMost X i fuel (X.next s) (X.block s).toList

/-- The shuffle under way: the coefficients so far, the sign bits left, and the stream. -/
structure Shuffle (X : Xof shake256Rate) where
  coeffs : Vector Int32 256
  signs : UInt64
  state : X.State
  pending : Bytes

/-- Moves the coefficient at a drawn position `j ≤ i` to `i` and puts a sign in its place. -/
def Shuffle.step (X : Xof shake256Rate) (patience : Nat) (w : Shuffle X) (i : Fin 256) :
    Option (Shuffle X) :=
  match nextAtMost X i patience w.state w.pending with
  | none => none
  | some (b, state, pending) =>
    let j : Fin 256 := ⟨b.toNat, b.toNat_lt⟩
    let sign : Int32 := 1 - 2 * (w.signs &&& 1).toUInt32.toInt32
    some ⟨(w.coeffs.set i w.coeffs[j]).set j sign, w.signs >>> 1, state, pending⟩

/-- The last 60 positions in order. -/
def lastPositions : List (Fin 256) :=
  (List.finRange tau).map fun k => ⟨degree - tau + k.val, Nat.add_lt_add_left k.isLt _⟩

end Sampler

namespace Poly

open Sampler

/-- A matrix entry: the first 256 candidates in the stream of `seed` and `nonce`. -/
def uniform (O : Oracle) (seed : Bytes) (nonce : UInt16) : Option (Poly .transformed) :=
  let X := O.shake128
  let (buf, s) := X.read 5 (X.start (seed ++ Bytes.ofUInt16 nonce))
  (moreUniform X O.patience s (carry buf) (acceptUniform degree buf)).map ofList

/-- A short secret: the first 256 coefficients in the stream of `seed` and `nonce`. -/
def uniformEta (O : Oracle) (seed : Bytes) (nonce : UInt16) : Option (Poly .plain) :=
  let X := O.shake256
  let s := X.start (seed ++ Bytes.ofUInt16 nonce)
  (moreEta X O.patience (X.next s) (acceptEta degree (nibbles (X.block s).toList))).map ofList

/-- A mask: the start of the stream of `seed` and `nonce`, read as a packed polynomial. -/
def uniformGamma1 (O : Oracle) (seed : Bytes) (nonce : UInt16) : Poly .plain :=
  let X := O.shake256
  unpack .z (X.read 5 (X.start (seed ++ Bytes.ofUInt16 nonce))).1

/-- The challenge of a hash: the first eight bytes of its stream are the signs, the others draw
the positions. -/
def challenge (O : Oracle) (hash : Bytes) : Option (Poly .plain) :=
  let X := O.shake256
  let s := X.start hash
  let first := (X.block s).toList
  let w : Shuffle X := ⟨.replicate 256 0, Bytes.toUInt64 first, X.next s, first.drop 8⟩
  (lastPositions.foldlM (Shuffle.step X O.patience) w).map fun w => ⟨w.coeffs⟩

end Poly

end LatticeSignature
