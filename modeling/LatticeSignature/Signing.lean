import LatticeSignature.Error
import LatticeSignature.KeyPair

/-!
# Signing

A signing round draws a mask `y`, commits to the high part of `A y`, hashes the commitment with the
message representative to a challenge `c`, and answers with `z = y + c s1` and a hint. The answer is
used only if it is in range, so that it tells nothing of the secrets; otherwise the next round draws
another mask.

* `commitment`, `SigningKey.respond`: the two moves of a round.
* `signRound`: one round.
* `signRounds`: rounds until one is accepted. The mask depends on the round modulo `2 ^ 16` only, so
  none is accepted later if none of the first `2 ^ 16` is.
* `Standard.sign`, `Legacy.sign`: what each variant signs.
-/

namespace LatticeSignature

open Params

/-- A secret key made ready for signing: the matrix of its seed, and its vectors as values. -/
structure SigningKey where
  matrix : Matrix
  s1 : PolyVec .transformed 7
  s2 : PolyVec .transformed 8
  t0 : PolyVec .transformed 8

/-- Makes a secret key ready for signing. -/
def SigningKey.ofParts (O : Oracle) {tr : Nat} (sk : SecretParts tr) : Option SigningKey :=
  (Matrix.expand O sk.rho.bytes).map fun A =>
    ⟨A, sk.s1.transform, sk.s2.transform, sk.t0.transform⟩

/-- `A y`, in its high and low parts. -/
def commitment (A : Matrix) (y : PolyVec .plain 7) : PolyVec.Parts 8 :=
  ((A.mul y.transform).reduce.inverseTransform.lift).decompose

/-- What a round answers to a challenge. -/
structure Response where
  z : PolyVec .plain 7
  hint : PolyVec .plain 8

/-- The answer to the challenge `c` for the mask `y` and its commitment `w`, if it is in range. All
four tests are made, whatever the outcome of each. -/
def SigningKey.respond (k : SigningKey) (c : Poly .transformed) (y : PolyVec .plain 7)
    (w : PolyVec.Parts 8) : Option Response :=
  let z := ((k.s1.scale c).inverseTransform.add y).reduce
  let low := (w.low.sub (k.s2.scale c).inverseTransform).reduce
  let ct0 := (k.t0.scale c).inverseTransform.reduce
  let hint := (low.add ct0).makeHint w.high
  if z.normBelow (gamma1 - beta) && low.normBelow (gamma2 - beta) && ct0.normBelow gamma2 &&
      hint.total ≤ omega then
    some ⟨z, hint⟩
  else none

/-- The round with mask number `nonce` over the message representative `mu`; the parts of the
signature, if it is accepted. -/
def signRound (O : Oracle) (challengeBytes : Nat) (k : SigningKey) (mu rhoPrime : ByteString crhBytes)
    (nonce : UInt16) : Protocol (Option (SignatureParts challengeBytes)) := do
  let y := PolyVec.uniformGamma1 O rhoPrime.bytes nonce
  let w := commitment k.matrix y
  let hash ← Protocol.hash O [mu.bytes, (PolyVec.pack .w1 w.high).bytes] challengeBytes
  let c ← Protocol.ofOption (Poly.challenge O hash.bytes)
  return (k.respond c.transform y w).map fun r => ⟨hash, r.z, r.hint⟩

/-- Up to `fuel` rounds, from round `n` on, until one is accepted. -/
def signRounds (O : Oracle) (challengeBytes : Nat) (k : SigningKey) (mu rhoPrime : ByteString crhBytes) :
    (fuel n : Nat) → Protocol (SignatureParts challengeBytes)
  | 0, _ => Protocol.ofOption none
  | fuel + 1, n => do
    match ← signRound O challengeBytes k mu rhoPrime n.toUInt16 with
    | some parts =>
      Protocol.report (.signatureAccepted (n + 1))
      return parts
    | none => signRounds O challengeBytes k mu rhoPrime fuel (n + 1)

/-- Signs `message` behind `frame`, with masks drawn from the secret key, the representative of the
message and `randomness`. -/
def signFramed (O : Oracle) (v : Variant) (sk : SecretKey v) (frame message randomness : Bytes) :
    Protocol (Signature v) := do
  let parts := SecretParts.decode sk
  let mu ← Protocol.hash O [parts.tr.bytes, frame, message] crhBytes
  let rhoPrime ← Protocol.hash O [parts.key.bytes, randomness, mu.bytes] crhBytes
  let k ← Protocol.ofOption (SigningKey.ofParts O parts)
  let signature ← signRounds O v.challengeBytes k mu rhoPrime 65536 0
  return signature.encode

namespace Standard

/-- What stands before a message: a zero byte, the length of the context, and the context. -/
def frame (context : Bytes) : Bytes := [0, context.length.toUInt8] ++ context

/-- Signs a message under a context of at most 255 bytes. -/
def sign (O : Oracle) (sk : SecretKey .standard) (message context : Bytes)
    (randomness : ByteString randomnessBytes) : Protocol (Except Error (Signature .standard)) :=
  if maxContextBytes < context.length then return .error (.contextTooLong context.length)
  else do
    let signature ← signFramed O .standard sk (frame context) message randomness.bytes
    return .ok signature

end Standard

namespace Legacy

/-- Signs a message; the message stands alone and no randomness is used. -/
def sign (O : Oracle) (sk : SecretKey .legacy) (message : Bytes) :
    Protocol (Signature .legacy) :=
  signFramed O .legacy sk [] message []

/-- Signs a message, unless the secret key has been wiped. -/
def signUnlessWiped (O : Oracle) (sk : SecretKey .legacy) (message : Bytes) :
    Protocol (Except Error (Signature .legacy)) :=
  if sk.bytes.all (· == 0) then return .error .zeroSecretKey
  else do
    let signature ← sign O sk message
    return .ok signature

end Legacy

end LatticeSignature
