import LatticeSignature.Xof
import Mathlib.Data.List.GetD
import Mathlib.Data.Nat.Notation

/-!
# Reading a stream block by block

A reader fetches a stream in blocks and keeps the bytes of them that it has not consumed yet. Its
position in the stream determines what it keeps, wherever the boundaries of the blocks are: no byte is
skipped and none is read twice.

* `Xof.Reads`: a reader at a position of a stream.
* `Xof.Reads.start`, **`Xof.Reads.fetch`**, **`Xof.Reads.consume`**: what a reader does.
-/

namespace LatticeSignature.Xof

variable {rate : ℕ} {X : Xof rate} {input : Bytes} {p : ℕ} {s : X.State} {pending : Bytes}

theorem advance_succ (k : ℕ) (s : X.State) : X.advance (k + 1) s = X.next (X.advance k s) := by
  induction k generalizing s with
  | zero => rfl
  | succ k ih => exact ih (X.next s)

theorem stream_mul_add (m : ℕ) {k : ℕ} (hk : k < rate) :
    X.stream input (rate * m + k) = (X.block (X.advance m (X.start input)))[k] := by
  have hdiv : (rate * m + k) / rate = m := by
    rw [Nat.mul_add_div X.rate_pos, Nat.div_eq_of_lt hk, Nat.add_zero]
  have hmod : (rate * m + k) % rate = k := by rw [Nat.mul_add_mod, Nat.mod_eq_of_lt hk]
  simp only [stream, hdiv, hmod]
  rfl

/-- A reader at position `p` of the stream of `input`: `pending` is what it has fetched and not
consumed, and `s` holds the next block. -/
structure Reads (X : Xof rate) (input : Bytes) (p : ℕ) (s : X.State) (pending : Bytes) : Prop where
  /-- Whole blocks have been fetched, and `s` follows them. -/
  fetched : ∃ m, s = X.advance m (X.start input) ∧ p + pending.length = rate * m
  pending_eq : ∀ k (h : k < pending.length), pending[k] = X.stream input (p + k)

namespace Reads

variable (X input) in
theorem start : X.Reads input 0 (X.start input) [] := ⟨⟨0, rfl, rfl⟩, by simp⟩

/-- The next block joins what is pending. -/
theorem fetch (h : X.Reads input p s pending) :
    X.Reads input p (X.next s) (pending ++ (X.block s).toList) := by
  obtain ⟨m, rfl, hlength⟩ := h.fetched
  refine ⟨⟨m + 1, (advance_succ m _).symm, ?_⟩, fun k hk => ?_⟩
  · rw [List.length_append, Vector.length_toList, Nat.mul_succ, ← hlength, Nat.add_assoc]
  · rw [List.length_append, Vector.length_toList] at hk
    rw [List.getElem_append]
    split
    · exact h.pending_eq k ‹_›
    · have hsplit : p + k = rate * m + (k - pending.length) := by omega
      rw [hsplit, stream_mul_add m (by omega), Vector.getElem_toList]

theorem read (h : X.Reads input p s pending) (k : ℕ) :
    X.Reads input p (X.read k s).2 (pending ++ (X.read k s).1) := by
  induction k generalizing s pending with
  | zero => simpa [Xof.read] using h
  | succ k ih =>
    have hnext := ih h.fetch
    rwa [List.append_assoc] at hnext

theorem consume {read rest : Bytes} (h : X.Reads input p s (read ++ rest)) :
    X.Reads input (p + read.length) s rest := by
  obtain ⟨m, hs, hlength⟩ := h.fetched
  rw [List.length_append, ← Nat.add_assoc] at hlength
  refine ⟨⟨m, hs, hlength⟩, fun k hk => ?_⟩
  rw [Nat.add_assoc, ← h.pending_eq (read.length + k) (by rw [List.length_append]; omega)]
  simp

theorem getElem_append {read rest : Bytes} (h : X.Reads input p s (read ++ rest)) {k : ℕ}
    (hk : k < read.length) : read[k] = X.stream input (p + k) := by
  rw [← h.pending_eq k (by rw [List.length_append]; omega), List.getElem_append_left]

theorem stream_eq_getD (h : X.Reads input p s pending) {k : ℕ} (hk : k < pending.length) :
    X.stream input (p + k) = pending.getD k 0 := by
  rw [List.getD_eq_getElem _ _ hk, h.pending_eq k hk]

theorem head_eq {b : UInt8} {rest : Bytes} (h : X.Reads input p s (b :: rest)) : b = X.stream input p :=
  h.pending_eq 0 (Nat.succ_pos _)

end Reads

end LatticeSignature.Xof
