import LatticeSignature.Protocol

/-!
# Envelopes

An envelope is a signature with the message behind it.

* `Envelope.join`, `Envelope.split?`: an envelope and its two parts.
* `Envelope.unwrap`: the message, if its signature holds.
-/

namespace LatticeSignature.Envelope

/-- A signature and the message behind it. -/
def join (signature message : Bytes) : Bytes := signature ++ message

/-- The signature, of a given length, and the message; `none` if the bytes do not hold a whole
signature. -/
def split? (length : Nat) (envelope : Bytes) : Option (Bytes × Bytes) :=
  if length ≤ envelope.length then some (envelope.take length, envelope.drop length) else none

/-- The message of an envelope whose signature passes a check. -/
def unwrap (length : Nat) (check : (signature message : Bytes) → Protocol Bool) (envelope : Bytes) :
    Protocol (Option Bytes) :=
  match split? length envelope with
  | none => return none
  | some (signature, message) => do
    if ← check signature message then return some message else return none

end LatticeSignature.Envelope
