/-!
# Byte strings

* `Bytes`: byte strings of any length.
* `ByteString n`: byte strings whose length is part of their type, with slices and concatenation.
* `Bytes.overwrite?`: writing at the front of a buffer.
-/

namespace LatticeSignature

/-- Byte strings of any length. -/
abbrev Bytes := List UInt8

namespace Bytes

/-- The two bytes of a 16-bit number, low byte first. -/
def ofUInt16 (x : UInt16) : Bytes := [x.toUInt8, (x >>> 8).toUInt8]

/-- The number that eight bytes spell, low byte first; missing bytes count as zero and later ones
are ignored. -/
def toUInt64 (b : Bytes) : UInt64 :=
  (b.take 8).foldr (fun x acc => (acc <<< 8) ||| x.toUInt64) 0

/-- Puts `data` at the front of `buffer` and keeps what lies behind it; `none` if it does not
fit. -/
def overwrite? (buffer data : Bytes) : Option Bytes :=
  if data.length ≤ buffer.length then some (data ++ buffer.drop data.length) else none

end Bytes

/-- Byte strings of length `n`. -/
@[ext]
structure ByteString (n : Nat) where
  /-- The bytes in order. -/
  bytes : Bytes
  /-- There are `n` of them. -/
  length_eq : bytes.length = n
deriving DecidableEq

namespace ByteString

variable {m n : Nat}

@[simp]
theorem length_bytes (b : ByteString n) : b.bytes.length = n := b.length_eq

/-- Checks the length of a byte string. -/
def ofBytes? (n : Nat) (b : Bytes) : Option (ByteString n) :=
  if h : b.length = n then some ⟨b, h⟩ else none

/-- The string of `n` zero bytes. -/
def zero (n : Nat) : ByteString n := ⟨List.replicate n 0, by simp⟩

/-- The first string followed by the second. -/
def append (a : ByteString m) (b : ByteString n) : ByteString (m + n) :=
  ⟨a.bytes ++ b.bytes, by simp⟩

instance : HAppend (ByteString m) (ByteString n) (ByteString (m + n)) := ⟨append⟩

@[simp]
theorem bytes_append (a : ByteString m) (b : ByteString n) :
    (a ++ b).bytes = a.bytes ++ b.bytes := rfl

/-- The `len` bytes from position `start` on. -/
def slice (b : ByteString n) (start len : Nat) (h : start + len ≤ n) : ByteString len :=
  ⟨(b.bytes.drop start).take len, by simp [b.length_eq]; omega⟩

@[simp]
theorem bytes_slice (b : ByteString n) (start len : Nat) (h : start + len ≤ n) :
    (b.slice start len h).bytes = (b.bytes.drop start).take len := rfl

/-- Equal-sized strings one after the other. -/
def flatten (v : Vector (ByteString m) n) : ByteString (n * m) :=
  ⟨v.toList.flatMap bytes, by simp [List.length_flatMap, List.map_const']⟩

end ByteString

end LatticeSignature
