/-!
# Events

What a protocol run reports besides its result: that keys were generated, that a signature was
accepted and after how many rounds, and why a signature was turned down.

* `Rejection`: the reasons to reject a signature, in the order in which they are tested.
* `Event`: what is reported; `level`, `message` and `fields` give its written form.
-/

namespace LatticeSignature

/-- Why a signature is rejected. -/
inductive Rejection where
  | contextTooLong (length : Nat)
  | wrongSignatureLength (length : Nat)
  | wrongPublicKeyLength (length : Nat)
  | malformedHint
  | responseOutOfRange
  | challengeMismatch
deriving DecidableEq

/-- What is reported. -/
inductive Event where
  /-- A key pair is complete. -/
  | generatedKeyPair
  /-- A signing round was accepted, counted from 1. -/
  | signatureAccepted (attempts : Nat)
  /-- A signature has all its parts in range; `hints` is the number of ones in its hint. -/
  | signatureDecoded (hints : Nat)
  | rejected (cause : Rejection)
deriving DecidableEq

/-- How important an event is. -/
inductive Level where
  | trace
  | debug
deriving DecidableEq

namespace Event

/-- Rejections are for debugging, everything else is a trace. -/
def level : Event → Level
  | rejected _ => .debug
  | _ => .trace

/-- The text of an event. -/
def message : Event → String
  | generatedKeyPair => "generated key pair"
  | signatureAccepted _ => "signature accepted"
  | signatureDecoded _ => "signature decoded"
  | rejected (.contextTooLong _) => "rejecting signature: context too long"
  | rejected (.wrongSignatureLength _) => "rejecting signature: wrong signature length"
  | rejected (.wrongPublicKeyLength _) => "rejecting signature: wrong public key length"
  | rejected .malformedHint => "rejecting signature: malformed hint"
  | rejected .responseOutOfRange => "rejecting signature: z out of range"
  | rejected .challengeMismatch => "rejecting signature: challenge mismatch"

/-- The numbers that go with an event, by name. -/
def fields : Event → List (String × Nat)
  | signatureAccepted attempts => [("attempts", attempts)]
  | signatureDecoded hints => [("hints", hints)]
  | rejected (.contextTooLong n) => [("len", n)]
  | rejected (.wrongSignatureLength n) => [("len", n)]
  | rejected (.wrongPublicKeyLength n) => [("len", n)]
  | _ => []

end Event

end LatticeSignature
