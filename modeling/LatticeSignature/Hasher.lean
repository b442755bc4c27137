import LatticeSignature.Xof

/-!
# Hashers

A hasher collects bytes and is emptied by reading its output, so that one hasher serves a whole
protocol run and carries nothing from one hash to the next.

* `Hasher`: the bytes absorbed since it was last empty.
* `Hasher.squeeze`: the output for those bytes, and the empty hasher.
-/

namespace LatticeSignature

/-- The bytes absorbed so far. -/
structure Hasher where
  absorbed : Bytes
deriving DecidableEq

namespace Hasher

/-- The hasher that has absorbed nothing. -/
def empty : Hasher := ⟨[]⟩

/-- Absorbs further bytes. -/
def absorb (h : Hasher) (data : Bytes) : Hasher := ⟨h.absorbed ++ data⟩

/-- Absorbs several byte strings in order. -/
def absorbAll (h : Hasher) (parts : List Bytes) : Hasher := parts.foldl absorb h

/-- The first `n` output bytes for what was absorbed, and a hasher that starts anew. -/
def squeeze (X : Xof Params.shake256Rate) (h : Hasher) (n : Nat) : ByteString n × Hasher :=
  (X.squeeze h.absorbed n, empty)

/-- Drops what was absorbed. -/
def reset (_ : Hasher) : Hasher := empty

@[simp]
theorem absorbed_empty : empty.absorbed = [] := rfl

@[simp]
theorem absorbed_absorb (h : Hasher) (data : Bytes) :
    (h.absorb data).absorbed = h.absorbed ++ data := rfl

@[simp]
theorem absorbed_absorbAll (h : Hasher) (parts : List Bytes) :
    (h.absorbAll parts).absorbed = h.absorbed ++ parts.flatten := by
  induction parts generalizing h with
  | nil => simp [absorbAll]
  | cons data parts ih => simpa [absorbAll] using ih (h.absorb data)

end Hasher

end LatticeSignature
