import LatticeSignature.Bytes

/-!
# Hexadecimal text

Two digits a byte, the high half first. Writing uses lowercase digits, reading takes either case.

* `Hex.encode`, `Hex.decode?`: bytes to text and back; `decode?` refuses an odd number of digits
  and any other character.
-/

namespace LatticeSignature.Hex

/-- The lowercase digit of a number below 16. -/
def digit (d : Nat) : Char :=
  if d < 10 then Char.ofNat (48 + d) else Char.ofNat (87 + d)

/-- The value of a hexadecimal digit of either case. -/
def value? (c : Char) : Option Nat :=
  if '0' ≤ c ∧ c ≤ '9' then some (c.toNat - 48)
  else if 'a' ≤ c ∧ c ≤ 'f' then some (c.toNat - 87)
  else if 'A' ≤ c ∧ c ≤ 'F' then some (c.toNat - 55)
  else none

/-- The two digits of a byte. -/
def digits (b : UInt8) : List Char := [digit (b.toNat / 16), digit (b.toNat % 16)]

/-- The text of a byte string. -/
def encode (b : Bytes) : String := String.ofList (b.flatMap digits)

/-- The bytes that a list of digits spells. -/
def decode? : List Char → Option Bytes
  | [] => some []
  | [_] => none
  | hi :: lo :: rest =>
    match value? hi, value? lo with
    | some h, some l => (decode? rest).map ((16 * h + l).toUInt8 :: ·)
    | _, _ => none

end LatticeSignature.Hex
