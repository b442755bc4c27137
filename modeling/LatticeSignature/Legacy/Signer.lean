import LatticeSignature.Envelope
import LatticeSignature.Seed
import LatticeSignature.Text.Record
import LatticeSignature.Verification

/-!
# Signers of the predecessor scheme

* `Legacy.unwrap`: the message of an envelope, if its signature holds.
* `LegacySigner`: a key pair with the seed it comes from.
-/

namespace LatticeSignature

/-- The message of an envelope, if its signature holds. -/
def Legacy.unwrap (O : Oracle) (envelope : Bytes) (publicKey : PublicKey) :
    Protocol (Option Bytes) :=
  Envelope.unwrap Variant.legacy.signatureBytes
    (fun signature message => verify O signature message publicKey.bytes) envelope

/-- A key pair of the predecessor scheme. -/
structure LegacySigner where
  seed : Seed
  keys : KeyPair .legacy

namespace LegacySigner

/-- The signer of a seed. -/
def ofSeed (O : Oracle) (seed : Seed) : Protocol LegacySigner := do
  let keys ← KeyPair.generate O .legacy seed.bytes
  return ⟨seed, keys⟩

/-- The signer of a seed in hexadecimal text. -/
def ofText (O : Oracle) (text : String) : Protocol (Except Error LegacySigner) :=
  match Seed.parse text with
  | .error e => return .error e
  | .ok seed => do
    let signer ← ofSeed O seed
    return .ok signer

/-- Signs a message. -/
def sign (O : Oracle) (s : LegacySigner) (message : Bytes) : Protocol (Signature .legacy) :=
  Legacy.sign O s.keys.secretKey message

/-- Signs a message and returns the envelope of both. -/
def wrap (O : Oracle) (s : LegacySigner) (message : Bytes) : Protocol Bytes := do
  let signature ← sign O s message
  return Envelope.join signature.bytes message

/-- Checks a signature. -/
def check (O : Oracle) (s : LegacySigner) (message signature : Bytes) : Protocol Bool :=
  Legacy.verify O signature message s.keys.publicKey.bytes

/-- The message of an envelope, if its signature holds. -/
def unwrap (O : Oracle) (s : LegacySigner) (envelope : Bytes) : Protocol (Option Bytes) :=
  Legacy.unwrap O envelope s.keys.publicKey

/-- Wipes the seed and the secret key. -/
def wipe (s : LegacySigner) : LegacySigner :=
  { seed := s.seed.wiped, keys := { s.keys with secretKey := .zero _ } }

/-- Shows the start of the public key. -/
def description (s : LegacySigner) : String :=
  Record.partly "Dilithium"
    [("public", Record.quoted (Hex.encode (s.keys.publicKey.bytes.take 8)))]

end LegacySigner

end LatticeSignature
