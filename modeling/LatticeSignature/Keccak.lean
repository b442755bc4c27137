/-!
# The Keccak permutation

The permutation of 1600-bit states behind the SHA-3 family, on 25 lanes of 64 bits. A state is
five planes of five lanes; the five step mappings are written on planes.

* `Keccak.permute`: 24 rounds of theta, rho, pi, chi and iota.
* `Keccak.State.xorBytes`: mixes a block of bytes into a state, low byte of each lane first.
* `Keccak.State.byte`: reads a state back byte by byte.
-/

namespace LatticeSignature.Keccak

/-- Five lanes that share their second coordinate. -/
structure Plane where
  x0 : UInt64
  x1 : UInt64
  x2 : UInt64
  x3 : UInt64
  x4 : UInt64
deriving DecidableEq

/-- Five planes in the order of their second coordinate. -/
structure State where
  y0 : Plane
  y1 : Plane
  y2 : Plane
  y3 : Plane
  y4 : Plane
deriving DecidableEq

/-- Rotation of a lane towards its high bits. -/
@[inline]
def rotate (w k : UInt64) : UInt64 := (w <<< k) ||| (w >>> (64 - k))

namespace Plane

/-- The plane whose lane `x` is `f x`. -/
def ofFn (f : Nat → UInt64) : Plane := ⟨f 0, f 1, f 2, f 3, f 4⟩

/-- Lane `x`. -/
def lane (p : Plane) : Nat → UInt64
  | 0 => p.x0
  | 1 => p.x1
  | 2 => p.x2
  | 3 => p.x3
  | _ => p.x4

/-- Lanewise sum over two elements. -/
@[inline]
def xor (p r : Plane) : Plane :=
  ⟨p.x0 ^^^ r.x0, p.x1 ^^^ r.x1, p.x2 ^^^ r.x2, p.x3 ^^^ r.x3, p.x4 ^^^ r.x4⟩

/-- Rotates lane `x` by offset `x`. -/
@[inline]
def rotateBy (p : Plane) (k0 k1 k2 k3 k4 : UInt64) : Plane :=
  ⟨rotate p.x0 k0, rotate p.x1 k1, rotate p.x2 k2, rotate p.x3 k3, rotate p.x4 k4⟩

end Plane

namespace State

/-- The state of 25 zero lanes. -/
def zero : State := ⟨⟨0, 0, 0, 0, 0⟩, ⟨0, 0, 0, 0, 0⟩, ⟨0, 0, 0, 0, 0⟩, ⟨0, 0, 0, 0, 0⟩,
  ⟨0, 0, 0, 0, 0⟩⟩

/-- The state whose lane number `5y + x` is `f (5y + x)`. -/
def ofFn (f : Nat → UInt64) : State :=
  ⟨.ofFn f, .ofFn fun x => f (5 + x), .ofFn fun x => f (10 + x), .ofFn fun x => f (15 + x),
    .ofFn fun x => f (20 + x)⟩

/-- Plane `y`. -/
def plane (s : State) : Nat → Plane
  | 0 => s.y0
  | 1 => s.y1
  | 2 => s.y2
  | 3 => s.y3
  | _ => s.y4

/-- Lanewise sum over two elements. -/
def xor (s r : State) : State :=
  ⟨s.y0.xor r.y0, s.y1.xor r.y1, s.y2.xor r.y2, s.y3.xor r.y3, s.y4.xor r.y4⟩

/-- Adds a block of bytes, which is at most as long as the state and is padded with zeros. -/
def xorBytes (s : State) (b : List UInt8) : State :=
  let a := b.toArray
  s.xor (.ofFn fun i =>
    (List.range 8).foldr (fun j acc => (acc <<< 8) ||| (a.getD (8 * i + j) 0).toUInt64) 0)

/-- Byte `i` of the state. -/
def byte (s : State) (i : Nat) : UInt8 :=
  (((s.plane (i / 40)).lane (i / 8 % 5)) >>> (8 * (i % 8)).toUInt64).toUInt8

end State

/-! ## Step mappings -/

/-- Adds to each lane the parities of two columns nearby. -/
def theta (s : State) : State :=
  let c := (((s.y0.xor s.y1).xor s.y2).xor s.y3).xor s.y4
  let d : Plane := ⟨c.x4 ^^^ rotate c.x1 1, c.x0 ^^^ rotate c.x2 1, c.x1 ^^^ rotate c.x3 1,
    c.x2 ^^^ rotate c.x4 1, c.x3 ^^^ rotate c.x0 1⟩
  ⟨s.y0.xor d, s.y1.xor d, s.y2.xor d, s.y3.xor d, s.y4.xor d⟩

/-- Rotates each lane by an offset of its own. -/
def rho (s : State) : State :=
  ⟨s.y0.rotateBy 0 1 62 28 27, s.y1.rotateBy 36 44 6 55 20, s.y2.rotateBy 3 10 43 25 39,
    s.y3.rotateBy 41 45 15 21 8, s.y4.rotateBy 18 2 61 56 14⟩

/-- Moves the lanes: lane `x` of plane `y` comes from lane `x + 3y` of plane `x`. -/
def pi (s : State) : State :=
  ⟨⟨s.y0.x0, s.y1.x1, s.y2.x2, s.y3.x3, s.y4.x4⟩, ⟨s.y0.x3, s.y1.x4, s.y2.x0, s.y3.x1, s.y4.x2⟩,
    ⟨s.y0.x1, s.y1.x2, s.y2.x3, s.y3.x4, s.y4.x0⟩, ⟨s.y0.x4, s.y1.x0, s.y2.x1, s.y3.x2, s.y4.x3⟩,
    ⟨s.y0.x2, s.y1.x3, s.y2.x4, s.y3.x0, s.y4.x1⟩⟩

/-- The nonlinear step on one plane. -/
def chiPlane (p : Plane) : Plane :=
  ⟨p.x0 ^^^ (~~~p.x1 &&& p.x2), p.x1 ^^^ (~~~p.x2 &&& p.x3), p.x2 ^^^ (~~~p.x3 &&& p.x4),
    p.x3 ^^^ (~~~p.x4 &&& p.x0), p.x4 ^^^ (~~~p.x0 &&& p.x1)⟩

/-- The nonlinear step. -/
def chi (s : State) : State :=
  ⟨chiPlane s.y0, chiPlane s.y1, chiPlane s.y2, chiPlane s.y3, chiPlane s.y4⟩

/-- Adds a round constant to the first lane. -/
def iota (s : State) (c : UInt64) : State :=
  { s with y0 := { s.y0 with x0 := s.y0.x0 ^^^ c } }

/-- The constants of the 24 rounds. -/
def roundConstants : List UInt64 :=
  [0x0000000000000001, 0x0000000000008082, 0x800000000000808a, 0x8000000080008000,
    0x000000000000808b, 0x0000000080000001, 0x8000000080008081, 0x8000000000008009,
    0x000000000000008a, 0x0000000000000088, 0x0000000080008009, 0x000000008000000a,
    0x000000008000808b, 0x800000000000008b, 0x8000000000008089, 0x8000000000008003,
    0x8000000000008002, 0x8000000000000080, 0x000000000000800a, 0x800000008000000a,
    0x8000000080008081, 0x8000000000008080, 0x0000000080000001, 0x8000000080008008]

/-- One round. -/
def round (s : State) (c : UInt64) : State := iota (chi (pi (rho (theta s)))) c

/-- The permutation. -/
def permute (s : State) : State := roundConstants.foldl round s

end LatticeSignature.Keccak
