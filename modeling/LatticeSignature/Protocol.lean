import LatticeSignature.Event
import LatticeSignature.Hasher

/-!
# Protocol runs

Key generation, signing and verification work on a hasher that they share with whatever ran before
and will run after them, and report events. A run has no result if a sampler gave up or no signing
round was accepted.

* `Protocol α`: a run with a result in `α`.
* `Protocol.hash`: one hash through the shared hasher.
* `Protocol.fresh`: a run that starts with an empty hasher.
-/

namespace LatticeSignature

/-- What a run carries along. -/
structure Session where
  hasher : Hasher
  /-- The events so far, in order. -/
  events : List Event

/-- A run with a result in `α`. -/
abbrev Protocol := StateT Session Option

namespace Protocol

/-- Absorbs some byte strings and reads `n` bytes of output. -/
def hash (O : Oracle) (parts : List Bytes) (n : Nat) : Protocol (ByteString n) := fun s =>
  let (out, hasher) := (s.hasher.absorbAll parts).squeeze O.shake256 n
  some (out, { s with hasher := hasher })

/-- Reports an event. -/
def report (e : Event) : Protocol Unit := fun s =>
  some ((), { s with events := s.events ++ [e] })

/-- Goes on with a value if there is one. -/
def ofOption {α : Type} (a : Option α) : Protocol α := fun s => a.map fun x => (x, s)

/-- Runs from a given hasher, with no events before it. -/
def start {α : Type} (p : Protocol α) (h : Hasher) : Option (α × Session) := p ⟨h, []⟩

/-- The result of a run that starts with an empty hasher, and its events. -/
def fresh {α : Type} (p : Protocol α) : Option (α × List Event) :=
  (p.start .empty).map fun (a, s) => (a, s.events)

end Protocol

end LatticeSignature
