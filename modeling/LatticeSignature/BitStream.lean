import LatticeSignature.Bytes

/-!
# Bit streams

Numbers of a common width, written one after the other into bytes, the low bit of each first. Both
directions keep the bits that do not yet fill a byte, or a number, in an accumulator.

* `BitStream.pack`: numbers to bytes; only the low `width` bits of a number are written.
* `BitStream.unpack`: bytes to numbers.
* `BitStream.length_pack`: 256 numbers of `width` bits fill `32 · width` bytes.
-/

namespace LatticeSignature.BitStream

/-- The `k` lowest bytes of a number, lowest first. -/
def lowBytes : Nat → Nat → Bytes
  | 0, _ => []
  | k + 1, a => a.toUInt8 :: lowBytes k (a >>> 8)

/-- The number that bytes spell, lowest first. -/
def ofBytes : Bytes → Nat
  | [] => 0
  | b :: bs => b.toNat ||| (ofBytes bs <<< 8)

/-- Writes numbers below `2 ^ width` behind the `filled` pending bits of `pending`, as far as they
fill whole bytes. -/
def packFrom (width : Nat) : (pending filled : Nat) → List Nat → Bytes
  | _, _, [] => []
  | pending, filled, v :: vs =>
    let pending := pending ||| (v <<< filled)
    let filled := filled + width
    lowBytes (filled / 8) pending ++ packFrom width (pending >>> (8 * (filled / 8))) (filled % 8) vs

/-- The bytes of a list of numbers. -/
def pack (width : Nat) (values : List Nat) : Bytes :=
  let range := 1 <<< width
  packFrom width 0 0 (values.map (· % range))

/-- Reads `count` numbers, `range` being `1 <<< width`, from the `filled` pending bits of `pending`
and the bytes behind them; bytes are fetched only as they are needed. -/
def unpackFrom (width range : Nat) : (count pending filled : Nat) → Bytes → List Nat
  | 0, _, _, _ => []
  | count + 1, pending, filled, bytes =>
    let fetched := (width - filled + 7) / 8
    let pending := pending ||| (ofBytes (bytes.take fetched) <<< filled)
    pending % range ::
      unpackFrom width range count (pending >>> width) (filled + 8 * fetched - width)
        (bytes.drop fetched)

/-- The first `count` numbers that a byte string holds; missing bytes count as zero. -/
def unpack (width count : Nat) (bytes : Bytes) : List Nat :=
  unpackFrom width (1 <<< width) count 0 0 bytes

/-- The number of bytes asked for. -/
@[simp]
theorem length_lowBytes (k a : Nat) : (lowBytes k a).length = k := by
  induction k generalizing a with
  | zero => rfl
  | succ k ih => simp [lowBytes, ih]

/-- Every bit is written, up to the last whole byte. -/
theorem length_packFrom (width pending filled : Nat) (values : List Nat) (h : filled < 8) :
    (packFrom width pending filled values).length = (filled + width * values.length) / 8 := by
  induction values generalizing pending filled with
  | nil => simp [packFrom]; omega
  | cons v vs ih =>
    simp only [packFrom, List.length_append, length_lowBytes, List.length_cons, Nat.mul_succ]
    rw [ih _ _ (Nat.mod_lt _ (by omega))]
    omega

/-- The packed length. -/
theorem length_pack (width : Nat) (values : List Nat) :
    (pack width values).length = width * values.length / 8 := by
  simp [pack, length_packFrom]

@[simp]
theorem length_unpackFrom (width range count pending filled : Nat) (bytes : Bytes) :
    (unpackFrom width range count pending filled bytes).length = count := by
  induction count generalizing pending filled bytes with
  | zero => rfl
  | succ count ih => simp [unpackFrom, ih]

@[simp]
theorem length_unpack (width count : Nat) (bytes : Bytes) :
    (unpack width count bytes).length = count := by
  simp [unpack]

end LatticeSignature.BitStream
