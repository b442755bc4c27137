import LatticeSignature.Standard.Keys
import LatticeSignature.Standard.SignerConfig

/-!
# Signers

* `Signer`: a key pair with the seed it comes from and a configuration that all its signatures
  follow.
* `Signer.hedge`: the randomness of a signature; `Signer.sign`, `Signer.wrap`: signing.
-/

namespace LatticeSignature

/-- A key pair that signs under one configuration. -/
structure Signer where
  seed : Seed
  keys : KeyPair .standard
  config : SignerConfig

namespace Signer

/-- The signer of a seed. -/
def ofSeed (O : Oracle) (seed : Seed) (config : SignerConfig) : Protocol Signer := do
  let keys ← KeyPair.generate O .standard seed.bytes
  return ⟨seed, keys, config⟩

/-- The signer of a seed in hexadecimal text. -/
def ofText (O : Oracle) (text : String) (config : SignerConfig) :
    Protocol (Except Error Signer) :=
  match Seed.parse text with
  | .error e => return .error e
  | .ok seed => do
    let signer ← ofSeed O seed config
    return .ok signer

/-- What a signature is hedged with: nothing, unless the configuration asks for randomness. Then it is
what has been drawn, and an error if nothing could be. -/
def hedge (s : Signer) (drawn : Option (ByteString Params.randomnessBytes)) :
    Except Error (Option (ByteString Params.randomnessBytes)) :=
  if s.config.randomized then
    match drawn with
    | none => .error .entropy
    | some bytes => .ok (some bytes)
  else .ok none

/-- Signs a message; `drawn` is used only if the configuration asks for randomness. -/
def sign (O : Oracle) (s : Signer) (message : Bytes) (drawn : Option (ByteString Params.randomnessBytes)) :
    Protocol (Except Error (Signature .standard)) :=
  match s.hedge drawn with
  | .error e => return .error e
  | .ok hedge => s.keys.sign O message (some s.config.context) hedge

/-- Signs a message and returns the envelope of both. -/
def wrap (O : Oracle) (s : Signer) (message : Bytes) (drawn : Option (ByteString Params.randomnessBytes)) :
    Protocol (Except Error Bytes) := do
  match ← sign O s message drawn with
  | .error e => return .error e
  | .ok signature => return .ok (Envelope.join signature.bytes message)

/-- Checks a signature. -/
def check (O : Oracle) (s : Signer) (message signature : Bytes) : Protocol Bool :=
  s.keys.check O message signature (some s.config.context)

/-- The message of an envelope, if its signature holds. -/
def unwrap (O : Oracle) (s : Signer) (envelope : Bytes) : Protocol (Option Bytes) :=
  PublicKey.unwrap O s.keys.publicKey envelope (some s.config.context)

/-- Wipes the seed and the secret key. -/
def wipe (s : Signer) : Signer :=
  { s with seed := s.seed.wiped, keys := { s.keys with secretKey := .zero _ } }

/-- Shows the public key and the configuration. -/
def description (s : Signer) : String :=
  Record.closed "MlDsa87"
    [("public", PublicKey.description s.keys.publicKey), ("config", s.config.description)]

end Signer

end LatticeSignature
