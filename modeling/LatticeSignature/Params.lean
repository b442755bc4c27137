/-!
# Parameters

The numbers of the parameter set at security category 5: the ring `ℤ_q[X]/(X^256 + 1)`, the module
dimensions `8 × 7`, the rounding constants, the bounds of the rejection tests and the lengths of
all byte strings. The numbers that occur in types are abbreviations, which may be written out there.

* `Variant`: what the standard signature scheme and its predecessor disagree on.
-/

namespace LatticeSignature

namespace Params

/-! ## The ring and the module -/

/-- Number of coefficients of a polynomial. -/
@[simp]
abbrev degree : Nat := 256

/-- The modulus. -/
def q : Int32 := 8380417

/-- A primitive 512th root of unity modulo `q`. -/
def rootOfUnity : Nat := 1753

/-- Number of low bits that the public key drops from `t`. -/
@[simp]
abbrev droppedBits : Nat := 13

/-- Number of rows of the public matrix. -/
@[simp]
abbrev rows : Nat := 8

/-- Number of columns of the public matrix. -/
@[simp]
abbrev columns : Nat := 7

/-! ## Ranges and bounds -/

/-- Largest absolute value of a secret coefficient. -/
def eta : Int32 := 2

/-- Number of nonzero coefficients of a challenge. -/
@[simp]
abbrev tau : Nat := 60

/-- Largest absolute value of a coefficient of challenge times secret. -/
def beta : Int32 := 120

/-- Range of the masking vector: its coefficients lie above `-gamma1` and are at most `gamma1`. -/
def gamma1 : Int32 := 524288

/-- Half the width of a high-bits bucket. -/
def gamma2 : Int32 := 261888

/-- Largest number of ones in the hint of a signature. -/
def omega : Nat := 75

/-! ## Lengths in bytes -/

/-- A key generation seed, and each of the two seeds stored in a secret key. -/
@[simp]
abbrev seedBytes : Nat := 32

/-- A message representative and a seed of the short vectors. -/
@[simp]
abbrev crhBytes : Nat := 64

/-- Signing randomness. -/
@[simp]
abbrev randomnessBytes : Nat := 32

/-- The longest context string. -/
@[simp]
abbrev maxContextBytes : Nat := 255

/-- Output block of the function that samples the matrix. -/
@[simp]
abbrev shake128Rate : Nat := 168

/-- Output block of the function used for everything else. -/
@[simp]
abbrev shake256Rate : Nat := 136

/-- A public key: the matrix seed and eight polynomials of 10-bit coefficients. -/
@[simp]
abbrev publicKeyBytes : Nat := 2592

/-- The hint section of a signature. -/
@[simp]
abbrev hintBytes : Nat := 83

/-- A secret key: two seeds, a public key hash of `tr` bytes, 15 polynomials of 3-bit coefficients and
eight of 13-bit coefficients. -/
@[simp]
abbrev secretKeyBytes (tr : Nat) : Nat := 4832 + tr

/-- A signature: a challenge hash of `c` bytes, seven polynomials of 20-bit coefficients and the hint
section. -/
@[simp]
abbrev signatureBytes (c : Nat) : Nat := 4563 + c

end Params

/-- The two schemes over one parameter set. They differ in two lengths and in what is hashed after
the key generation seed. -/
structure Variant where
  /-- Length of the public key hash stored in the secret key. -/
  trBytes : Nat
  /-- Length of the challenge hash that opens a signature. -/
  challengeBytes : Nat
  /-- Bytes absorbed after the key generation seed. -/
  seedSuffix : List UInt8
deriving DecidableEq

namespace Variant

/-- The standard scheme binds the module dimensions to the seed and hashes to 64 bytes. -/
def standard : Variant := ⟨64, 64, [Params.rows.toUInt8, Params.columns.toUInt8]⟩

/-- The predecessor hashes to 32 bytes. -/
def legacy : Variant := ⟨32, 32, []⟩

/-- Length of a secret key. -/
abbrev secretKeyBytes (v : Variant) : Nat := Params.secretKeyBytes v.trBytes

/-- Length of a signature. -/
abbrev signatureBytes (v : Variant) : Nat := Params.signatureBytes v.challengeBytes

end Variant

end LatticeSignature
