import LatticeSignature.PolyVec

/-!
# The hint section

A hint is a vector of eight polynomials with few nonzero coefficients. It is stored in 83 bytes:
75 for the positions of its ones, row after row and padded with zeros, and eight for the number of
ones up to the end of each row.

* `Hint.encode`: the section of a hint. Positions beyond the 75th are left out, and the counts are
  taken modulo 256.
* `Hint.decode?`: the hint of a section in canonical form: counts that do not fall and do not
  exceed 75, positions that rise within each row, and zeros behind the last position. Any other
  section is refused, so that a hint has one encoding.
-/

namespace LatticeSignature.Hint

/-! ## Encoding -/

/-- The positions of the nonzero coefficients of a row, in rising order. -/
def positions (p : Poly .plain) : Bytes :=
  ((List.finRange 256).filter fun j => p.coeffs.get j != 0).map fun j => j.val.toUInt8

/-- The number of positions up to the end of each row, `used` of them lying before the first. -/
def runningCounts : (used : Nat) → List Bytes → Bytes
  | _, [] => []
  | used, row :: rows => (used + row.length).toUInt8 :: runningCounts (used + row.length) rows

@[simp]
theorem length_runningCounts (used : Nat) (rows : List Bytes) :
    (runningCounts used rows).length = rows.length := by
  induction rows generalizing used with
  | nil => rfl
  | cons row rows ih => simp [runningCounts, ih]

/-- The section of a hint. -/
def encode (h : PolyVec .plain 8) : ByteString Params.hintBytes :=
  let rows := h.toList.map positions
  let listed := rows.flatten.take 75
  ⟨listed ++ List.replicate (75 - listed.length) 0 ++ runningCounts 0 rows, by
    simp [rows, listed]; omega⟩

/-! ## Decoding -/

/-- The polynomial with ones at the listed positions and zeros elsewhere. -/
def indicator (row : Bytes) : Poly .plain :=
  .ofFn fun j => if j.val.toUInt8 ∈ row then 1 else 0

/-- Cuts rows off a list of positions where the counts say, `used` positions lying before it. The
rows, and the positions behind the last one; `none` if a count or a row is not in order. -/
def splitRows : (used : Nat) → (counts rest : Bytes) → Option (List Bytes × Bytes)
  | _, [], rest => some ([], rest)
  | used, count :: counts, rest =>
    let upTo := count.toNat
    let row := rest.take (upTo - used)
    if used ≤ upTo ∧ upTo ≤ 75 ∧ row.Pairwise (· < ·) then
      (splitRows upTo counts (rest.drop (upTo - used))).map fun (rows, left) => (row :: rows, left)
    else none

/-- The hint of a section, if it is in canonical form. -/
def decode? (b : Bytes) : Option (PolyVec .plain 8) :=
  if b.length = Params.hintBytes then
    match splitRows 0 (b.drop 75) (b.take 75) with
    | some (rows, left) =>
      if left.all (· == 0) then some (.ofFn fun i => indicator (rows.getD i.val [])) else none
    | none => none
  else none

end LatticeSignature.Hint
