import LatticeSignature.Hint

/-!
# Layouts of keys and signatures

The parts of a public key, a secret key and a signature, and the byte strings that hold them one
after the other. Secret keys and signatures differ between the variants in the length of one hash
only, which is a parameter of their type.

* `PublicParts`, `SecretParts tr`: every byte string of the right length decodes.
* `SignatureParts c`: a byte string decodes if it has the right length and its hint section is in
  canonical form.
-/

namespace LatticeSignature

open Params

/-- What a public key holds. -/
@[ext]
structure PublicParts where
  /-- Seed of the matrix. -/
  rho : ByteString seedBytes
  /-- High part of the public vector. -/
  t1 : PolyVec .plain 8
deriving DecidableEq

/-- What a secret key holds; `tr` is the length of its public key hash. -/
@[ext]
structure SecretParts (tr : Nat) where
  /-- Seed of the matrix. -/
  rho : ByteString seedBytes
  /-- Seed of the masks. -/
  key : ByteString seedBytes
  /-- Hash of the public key. -/
  tr : ByteString tr
  s1 : PolyVec .plain 7
  s2 : PolyVec .plain 8
  /-- Low part of the public vector. -/
  t0 : PolyVec .plain 8
deriving DecidableEq

/-- What a signature holds; `c` is the length of its challenge hash. -/
@[ext]
structure SignatureParts (c : Nat) where
  /-- The hash that the challenge is drawn from. -/
  challenge : ByteString c
  /-- Response to the challenge. -/
  z : PolyVec .plain 7
  /-- Hint for the high parts of the commitment. -/
  hint : PolyVec .plain 8
deriving DecidableEq

namespace PublicParts

/-- The bytes of a public key. -/
def encode (p : PublicParts) : ByteString publicKeyBytes := p.rho.append (PolyVec.pack .t1 p.t1)

/-- The parts of a public key. -/
def decode (b : ByteString publicKeyBytes) : PublicParts :=
  ⟨b.slice 0 seedBytes (by decide), PolyVec.unpack .t1 rows seedBytes b.bytes⟩

end PublicParts

namespace SecretParts

variable {tr : Nat}

/-- The bytes of a secret key. -/
def encode (p : SecretParts tr) : ByteString (secretKeyBytes tr) :=
  ⟨p.rho.bytes ++ p.key.bytes ++ p.tr.bytes ++ (PolyVec.pack .eta p.s1).bytes ++
      (PolyVec.pack .eta p.s2).bytes ++ (PolyVec.pack .t0 p.t0).bytes, by
    simp; omega⟩

/-- The parts of a secret key. -/
def decode (b : ByteString (secretKeyBytes tr)) : SecretParts tr :=
  { rho := b.slice 0 seedBytes (by simp; omega)
    key := b.slice seedBytes seedBytes (by simp; omega)
    tr := b.slice (2 * seedBytes) tr (by simp)
    s1 := PolyVec.unpack .eta columns (64 + tr) b.bytes
    s2 := PolyVec.unpack .eta rows (736 + tr) b.bytes
    t0 := PolyVec.unpack .t0 rows (1504 + tr) b.bytes }

/-- The parts of the secret key that a byte string starts with; `none` if it is too short. -/
def decode? (tr : Nat) (b : Bytes) : Option (SecretParts tr) :=
  (ByteString.ofBytes? (secretKeyBytes tr) (b.take (secretKeyBytes tr))).map decode

end SecretParts

namespace SignatureParts

variable {c : Nat}

/-- The bytes of a signature. -/
def encode (p : SignatureParts c) : ByteString (signatureBytes c) :=
  ⟨p.challenge.bytes ++ (PolyVec.pack .z p.z).bytes ++ (Hint.encode p.hint).bytes, by
    simp; omega⟩

/-- The parts of a signature, if it has the right length and its hint section is canonical. -/
def decode? (c : Nat) (b : Bytes) : Option (SignatureParts c) :=
  match ByteString.ofBytes? (signatureBytes c) b with
  | none => none
  | some s =>
    (Hint.decode? (s.slice (4480 + c) hintBytes (by simp; omega)).bytes).map fun hint =>
      { challenge := s.slice 0 c (by simp)
        z := PolyVec.unpack .z columns c s.bytes
        hint := hint }

end SignatureParts

end LatticeSignature
