import LatticeSignature.Layout
import LatticeSignature.Protocol

/-!
# Key pairs

* `PublicKey`, `SecretKey v`, `Signature v`: the byte strings of each variant.
* `KeyPair.generate`: the key pair of a seed. With a matrix `A` and short vectors `s1`, `s2` drawn
  from the seed, the public key holds the high part of `A s1 + s2` and the secret key the rest.
-/

namespace LatticeSignature

open Params

/-- A public key. -/
abbrev PublicKey := ByteString publicKeyBytes

/-- A secret key. -/
abbrev SecretKey (v : Variant) := ByteString v.secretKeyBytes

/-- A signature. -/
abbrev Signature (v : Variant) := ByteString v.signatureBytes

/-- A secret key with its public key. -/
structure KeyPair (v : Variant) where
  secretKey : SecretKey v
  publicKey : PublicKey
deriving DecidableEq

/-- `A s1 + s2`, in its high and low parts. -/
def publicVector (A : Matrix) (s1 : PolyVec .plain 7) (s2 : PolyVec .plain 8) : PolyVec.Parts 8 :=
  (((A.mul s1.transform).reduce.inverseTransform.add s2).lift).power2Round

/-- The key pair of a seed, which is hashed to the seed of the matrix, the seed of the short vectors
and the seed of the masks. -/
def KeyPair.generate (O : Oracle) (v : Variant) (seed : ByteString seedBytes) :
    Protocol (KeyPair v) := do
  let material ← Protocol.hash O [seed.bytes, v.seedSuffix] 128
  let rho := material.slice 0 seedBytes (by simp)
  let rhoPrime := material.slice seedBytes crhBytes (by simp)
  let key := material.slice (seedBytes + crhBytes) seedBytes (by simp)
  let A ← Protocol.ofOption (Matrix.expand O rho.bytes)
  let s1 ← Protocol.ofOption (PolyVec.uniformEta O columns rhoPrime.bytes 0)
  let s2 ← Protocol.ofOption (PolyVec.uniformEta O rows rhoPrime.bytes 7)
  let t := publicVector A s1 s2
  let publicKey := PublicParts.encode ⟨rho, t.high⟩
  let tr ← Protocol.hash O [publicKey.bytes] v.trBytes
  Protocol.report .generatedKeyPair
  return ⟨SecretParts.encode ⟨rho, key, tr, s1, s2, t.low⟩, publicKey⟩

end LatticeSignature
