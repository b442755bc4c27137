import LatticeSignature.Bytes.Hex
import LatticeSignature.Error
import LatticeSignature.Params

/-!
# Seeds

A seed is 32 bytes of secret material. It can be given as hexadecimal text, with or without `0x` in
front.

* `Seed`: the secret, with a description that does not show it.
* `Seed.take`: moves the secret out of a buffer, which is wiped.
* `Seed.parse`, `Seed.text`: from text and back.
-/

namespace LatticeSignature

/-- 32 secret bytes. -/
structure Seed where
  bytes : ByteString Params.seedBytes
deriving DecidableEq

namespace Seed

/-- A seed with the bytes of a buffer, and the buffer wiped. -/
def take (buffer : ByteString Params.seedBytes) : Seed × ByteString Params.seedBytes := (⟨buffer⟩, .zero _)

/-- What is left of a seed after wiping. -/
def wiped (_ : Seed) : Seed := ⟨.zero _⟩

/-- The same text for every seed. -/
def description (_ : Seed) : String := "SensitiveBytes32(..)"

/-- The digits of a text, without one `0x` or `0X` in front. -/
def digits : List Char → List Char
  | '0' :: 'x' :: rest => rest
  | '0' :: 'X' :: rest => rest
  | text => text

/-- The seed that a text spells in hexadecimal digits. -/
def parse (text : String) : Except Error Seed :=
  match Hex.decode? (digits text.toList) with
  | none => .error .hexSeed
  | some b =>
    match ByteString.ofBytes? Params.seedBytes b with
    | none => .error (.seedLength b.length)
    | some s => .ok ⟨s⟩

/-- `0x` and 64 lowercase digits. -/
def text (s : Seed) : String := "0x" ++ Hex.encode s.bytes.bytes

end Seed

end LatticeSignature
