import LatticeSignature.Error
import LatticeSignature.Params
import LatticeSignature.Text.Record

/-!
# Signer configurations

* `SignerConfig`: the context that a signer signs under, and whether it draws randomness for each
  signature.
-/

namespace LatticeSignature

/-- How a signer signs. -/
structure SignerConfig where
  /-- The context of all its signatures. -/
  context : Bytes
  /-- Whether each signature uses randomness of its own. -/
  randomized : Bool
  length_context : context.length ≤ Params.maxContextBytes
deriving DecidableEq

namespace SignerConfig

/-- The empty context, without randomness. -/
def default : SignerConfig := ⟨[], false, Nat.zero_le _⟩

/-- A context of at most 255 bytes, without randomness. -/
def ofContext (context : Bytes) : Except Error SignerConfig :=
  if h : context.length ≤ Params.maxContextBytes then .ok ⟨context, false, h⟩
  else .error (.contextTooLong context.length)

/-- The same context with randomness switched on or off. -/
def withRandomized (c : SignerConfig) (enabled : Bool) : SignerConfig :=
  { c with randomized := enabled }

/-- Shows both settings. -/
def description (c : SignerConfig) : String :=
  Record.closed "SignerConfig"
    [("context", Record.bytes c.context), ("randomized_signing", toString c.randomized)]

end SignerConfig

end LatticeSignature
