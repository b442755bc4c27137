/-!
# Errors

Why keys, seeds and contexts are refused, and why randomness is missing. Verification has no errors: it
answers no.

* `Error`: the causes.
* `Error.message`: their wording.
-/

namespace LatticeSignature

/-- Why an operation is refused. -/
inductive Error where
  | contextTooLong (length : Nat)
  | badPublicKey (expected actual : Nat)
  | badSecretKey (expected actual : Nat)
  | badKeyPair (expected actual : Nat)
  | zeroSecretKey
  /-- Randomness was asked for, and there was none. -/
  | entropy
  /-- A seed that is not hexadecimal text. -/
  | hexSeed
  /-- A hexadecimal seed of a length other than 32 bytes. -/
  | seedLength (length : Nat)
deriving DecidableEq

namespace Error

/-- The wording of an error. -/
def message : Error → String
  | contextTooLong n => s!"context string is {n} bytes, at most 255 allowed"
  | badPublicKey expected actual => s!"public key must be {expected} bytes, got {actual}"
  | badSecretKey expected actual => s!"secret key must be {expected} bytes, got {actual}"
  | badKeyPair expected actual => s!"key pair must be {expected} bytes, got {actual}"
  | zeroSecretKey => "secret key is all zeros"
  | entropy => "entropy source failed"
  | hexSeed => "seed is not valid hex"
  | seedLength n => s!"seed must be 32 bytes, got {n}"

end Error

end LatticeSignature
