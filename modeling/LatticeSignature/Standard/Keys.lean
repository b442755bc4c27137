import LatticeSignature.Envelope
import LatticeSignature.Seed
import LatticeSignature.Text.Record
import LatticeSignature.Verification

/-!
# Keys of the standard scheme

Signing, wrapping and checking with keys whose lengths have been checked. A missing context is the
empty one, and a signature without randomness uses 32 zero bytes.

* `PublicKey`: from bytes, checking, unwrapping, order.
* `SecretKey`: from bytes, signing.
* `KeyPair`: from a seed or from bytes, and all of the above.
-/

namespace LatticeSignature

open Params
open Standard (sign verify)

namespace PublicKey

/-- A public key of 2592 bytes. -/
def ofBytes (b : Bytes) : Except Error PublicKey :=
  match ByteString.ofBytes? publicKeyBytes b with
  | none => .error (.badPublicKey publicKeyBytes b.length)
  | some pk => .ok pk

/-- The order of public keys, byte by byte. -/
def order (a b : PublicKey) : Ordering := compare a.bytes b.bytes

/-- Checks a signature. -/
def check (O : Oracle) (pk : PublicKey) (message signature : Bytes) (context : Option Bytes) :
    Protocol Bool :=
  verify O signature message (context.getD []) pk.bytes

/-- The message of an envelope, if its signature holds. -/
def unwrap (O : Oracle) (pk : PublicKey) (envelope : Bytes) (context : Option Bytes) :
    Protocol (Option Bytes) :=
  Envelope.unwrap Variant.standard.signatureBytes
    (fun signature message => check O pk message signature context) envelope

/-- Shows all bytes. -/
def description (pk : PublicKey) : String :=
  Record.closed "PublicKey" [("bytes", Record.bytes pk.bytes)]

end PublicKey

namespace SecretKey

/-- A secret key of 4896 bytes. -/
def ofBytes (b : Bytes) : Except Error (SecretKey .standard) :=
  match ByteString.ofBytes? Variant.standard.secretKeyBytes b with
  | none => .error (.badSecretKey Variant.standard.secretKeyBytes b.length)
  | some sk => .ok sk

/-- Signs a message. -/
def sign (O : Oracle) (sk : SecretKey .standard) (message : Bytes) (context : Option Bytes)
    (hedge : Option (ByteString randomnessBytes)) : Protocol (Except Error (Signature .standard)) :=
  Standard.sign O sk message (context.getD []) (hedge.getD (.zero _))

/-- The same text for every secret key. -/
def description (_ : SecretKey .standard) : String := "SecretKey(..)"

end SecretKey

namespace KeyPair

/-- The key pair of a seed in hexadecimal text. -/
def ofText (O : Oracle) (text : String) : Protocol (Except Error (KeyPair .standard)) :=
  match Seed.parse text with
  | .error e => return .error e
  | .ok seed => do
    let keys ← generate O .standard seed.bytes
    return .ok keys

/-- The secret key with the public key behind it. -/
def toBytes (k : KeyPair .standard) : ByteString 7488 := k.secretKey.append k.publicKey

/-- A key pair of 7488 bytes. -/
def ofBytes (b : Bytes) : Except Error (KeyPair .standard) :=
  match ByteString.ofBytes? 7488 b with
  | none => .error (.badKeyPair 7488 b.length)
  | some s => .ok ⟨s.slice 0 4896 (by omega), s.slice 4896 publicKeyBytes (by simp)⟩

/-- Signs a message. -/
def sign (O : Oracle) (k : KeyPair .standard) (message : Bytes) (context : Option Bytes)
    (hedge : Option (ByteString randomnessBytes)) : Protocol (Except Error (Signature .standard)) :=
  SecretKey.sign O k.secretKey message context hedge

/-- Signs a message and returns the envelope of both. -/
def wrap (O : Oracle) (k : KeyPair .standard) (message : Bytes) (context : Option Bytes)
    (hedge : Option (ByteString randomnessBytes)) : Protocol (Except Error Bytes) := do
  match ← sign O k message context hedge with
  | .error e => return .error e
  | .ok signature => return .ok (Envelope.join signature.bytes message)

/-- Checks a signature. -/
def check (O : Oracle) (k : KeyPair .standard) (message signature : Bytes)
    (context : Option Bytes) : Protocol Bool :=
  PublicKey.check O k.publicKey message signature context

/-- Shows the public key only. -/
def description (k : KeyPair .standard) : String :=
  Record.closed "Keypair" [("public", PublicKey.description k.publicKey)]

end KeyPair

end LatticeSignature
