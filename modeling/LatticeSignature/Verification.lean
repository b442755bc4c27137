import LatticeSignature.KeyPair
import LatticeSignature.Signing

/-!
# Verification

A verifier recomputes the high part of the commitment from the response, the challenge and the
public key, with the help of the hint, and checks that it hashes to the challenge.

* `recoverHigh`: the high part of `A z - c t1 2^13`, corrected by the hint.
* `parseSigned`: lengths and layout, with the first reason to refuse.
* `Standard.verify`, `Legacy.verify`: what each variant accepts. Any byte strings may be given.
-/

namespace LatticeSignature

open Params

/-- The high part of `A z - c t1 2^13`, corrected by a hint. -/
def recoverHigh (A : Matrix) (c : Poly .transformed) (t1 : PolyVec .plain 8)
    (z : PolyVec .plain 7) (hint : PolyVec .plain 8) : PolyVec .plain 8 :=
  let w := ((A.mul z.transform).sub (t1.shiftLeft.transform.scale c)).reduce
  w.inverseTransform.lift.useHint hint

/-- Reports a reason to reject a signature, and rejects it. -/
def reject (cause : Rejection) : Protocol Bool := do
  Protocol.report (.rejected cause)
  return false

/-- The parts of a signature and the public key, if both have the right length and the hint section
is canonical. -/
def parseSigned (v : Variant) (signature publicKey : Bytes) :
    Except Rejection (SignatureParts v.challengeBytes × PublicKey) :=
  if signature.length ≠ v.signatureBytes then
    .error (.wrongSignatureLength signature.length)
  else
    match ByteString.ofBytes? publicKeyBytes publicKey with
    | none => .error (.wrongPublicKeyLength publicKey.length)
    | some pk =>
      match SignatureParts.decode? v.challengeBytes signature with
      | none => .error .malformedHint
      | some parts => .ok (parts, pk)

/-- Checks the parts of a signature over the message representative `mu`. -/
def verifyParts (O : Oracle) {c : Nat} (parts : SignatureParts c) (publicKey : PublicKey)
    (mu : ByteString crhBytes) : Protocol Bool := do
  if parts.z.normBelow (gamma1 - beta) then
    Protocol.report (.signatureDecoded parts.hint.weight)
    let pk := PublicParts.decode publicKey
    let A ← Protocol.ofOption (Matrix.expand O pk.rho.bytes)
    let challenge ← Protocol.ofOption (Poly.challenge O parts.challenge.bytes)
    let w1 := recoverHigh A challenge.transform pk.t1 parts.z parts.hint
    let again ← Protocol.hash O [mu.bytes, (PolyVec.pack .w1 w1).bytes] c
    if again = parts.challenge then return true else reject .challengeMismatch
  else reject .responseOutOfRange

/-- Checks a signature of `message` behind `frame`. -/
def verifyFramed (O : Oracle) (v : Variant) (signature frame message publicKey : Bytes) :
    Protocol Bool :=
  match parseSigned v signature publicKey with
  | .error cause => reject cause
  | .ok (parts, pk) => do
    let tr ← Protocol.hash O [pk.bytes] v.trBytes
    let mu ← Protocol.hash O [tr.bytes, frame, message] crhBytes
    verifyParts O parts pk mu

/-- Checks a signature of `message` under `context`. -/
def Standard.verify (O : Oracle) (signature message context publicKey : Bytes) : Protocol Bool :=
  if maxContextBytes < context.length then reject (.contextTooLong context.length)
  else verifyFramed O .standard signature (frame context) message publicKey

/-- Checks a signature of `message`. -/
def Legacy.verify (O : Oracle) (signature message publicKey : Bytes) : Protocol Bool :=
  verifyFramed O .legacy signature [] message publicKey

end LatticeSignature
