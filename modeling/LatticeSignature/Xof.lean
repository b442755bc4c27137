import LatticeSignature.Bytes
import LatticeSignature.Params

/-!
# Extendable-output functions

An extendable-output function turns a byte string into an endless stream of bytes, which it hands
out in blocks of a fixed rate. Here it is a value: everything above this module works for any such
function and knows of it only what it reads.

* `Xof`: an initial state for each input, the block that a state holds, and the state after it.
* `Xof.stream`: the stream of an input, byte by byte.
* `Xof.read`: the next blocks of a stream, joined.
* `Xof.squeeze`: the first bytes of a stream.
* `Oracle`: the two functions that the schemes use, with a limit for the samplers.
-/

namespace LatticeSignature

/-- A function from byte strings to endless byte streams that are read in blocks of `rate`
bytes. -/
structure Xof (rate : Nat) where
  /-- Blocks are not empty. -/
  rate_pos : 0 < rate
  /-- What is kept between two blocks. -/
  State : Type
  /-- The state that an input leads to. -/
  start : Bytes → State
  /-- The block at hand. -/
  block : State → Vector UInt8 rate
  /-- The state that holds the following block. -/
  next : State → State

namespace Xof

variable {rate : Nat} (X : Xof rate)

/-- The state `k` blocks later. -/
def advance : Nat → X.State → X.State
  | 0, s => s
  | k + 1, s => advance k (X.next s)

/-- Byte `i` of the stream of `input`. -/
def stream (input : Bytes) (i : Nat) : UInt8 :=
  (X.block (X.advance (i / rate) (X.start input))).get ⟨i % rate, Nat.mod_lt _ X.rate_pos⟩

/-- The next `k` blocks joined, and the state after them. -/
def read : Nat → X.State → Bytes × X.State
  | 0, s => ([], s)
  | k + 1, s =>
    let (later, final) := read k (X.next s)
    ((X.block s).toList ++ later, final)

theorem length_read (k : Nat) (s : X.State) : (X.read k s).1.length = rate * k := by
  induction k generalizing s with
  | zero => simp [read]
  | succ k ih => simp [read, ih, Nat.mul_succ, Nat.add_comm]

/-- The first `n` bytes of the stream of `input`. -/
def squeeze (input : Bytes) (n : Nat) : ByteString n :=
  ⟨(X.read (n / rate + 1) (X.start input)).1.take n, by
    have := Nat.lt_mul_div_succ n X.rate_pos
    simp only [List.length_take, length_read]
    omega⟩

end Xof

/-- What the schemes draw on: the function that samples the matrix, the one that does all other
hashing, and how many blocks a sampler may fetch from one stream when its candidates run out
before it gives up. -/
structure Oracle where
  /-- Samples the public matrix. -/
  shake128 : Xof Params.shake128Rate
  /-- Samples everything else and hashes. -/
  shake256 : Xof Params.shake256Rate
  /-- How many blocks a sampler may fetch in a row. -/
  patience : Nat

end LatticeSignature
