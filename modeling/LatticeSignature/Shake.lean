import LatticeSignature.Keccak
import LatticeSignature.Xof

/-!
# SHAKE

The extendable-output functions of the SHA-3 family: a Keccak sponge whose input is closed by the
bits `1111` and padded with `10*1`.

* `shake rate`: the sponge of a given rate; 168 is SHAKE128 and 136 is SHAKE256.
* `Oracle.shake`: both functions, as the schemes use them.
-/

namespace LatticeSignature

namespace Shake

/-- Absorbs `k` whole blocks and returns the state with the bytes left over. -/
def absorbBlocks (rate : Nat) : Nat → Keccak.State → Bytes → Keccak.State × Bytes
  | 0, s, rest => (s, rest)
  | k + 1, s, rest =>
    absorbBlocks rate k (Keccak.permute (s.xorBytes (rest.take rate))) (rest.drop rate)

/-- Absorbs an input with its padding, which reaches into the last byte of the last block. -/
def absorb (rate : Nat) (input : Bytes) : Keccak.State :=
  let (s, rest) := absorbBlocks rate (input.length / rate) .zero input
  Keccak.permute
    ((s.xorBytes (rest ++ [0x1f])).xorBytes (List.replicate (rate - 1) 0 ++ [0x80]))

end Shake

/-- The sponge of a given rate. -/
def shake (rate : Nat) (h : 0 < rate) : Xof rate where
  rate_pos := h
  State := Keccak.State
  start := Shake.absorb rate
  block s := .ofFn fun i => s.byte i
  next := Keccak.permute

/-- Both SHAKE functions, with a limit that no sampler comes near. -/
def Oracle.shake : Oracle :=
  ⟨LatticeSignature.shake Params.shake128Rate (by decide),
    LatticeSignature.shake Params.shake256Rate (by decide), 1000000⟩

end LatticeSignature
