import LatticeSignature.Proofs.Poly
import LatticeSignature.Proofs.Rounding

/-!
# The offset from a corrected bucket

A representative lies within `gamma2` of the centre of its own bucket. A hint moves it to the centre of a
neighbour, a whole bucket further on, and one more where the way from bucket 15 to bucket 0 passes `q`,
since the buckets make up `q - 1` numbers only.

* `Rounding.offset`: what is left over the centre of the corrected bucket, by cases.
* **`Rounding.valMinAbs_sub_corrected`**: it is the representative of that difference nearest to zero.
* `Rounding.abs_offset_le`, `Rounding.abs_offset_eq_iff`: its bounds; with a hint the bound is reached
  at 0 only.
* **`Rounding.useHint_close`**: the words returned for a coefficient with and without a hint.
-/

namespace LatticeSignature.Rounding

/-! ## Definition by cases -/

/-- What is left of a representative over the centre of its corrected bucket. -/
def offset (r : ℤ) (hint : Prop) [Decidable hint] : ℤ :=
  if hint then
    if 0 < lowBits r then lowBits r - if highBits r = 15 then 523777 else 523776
    else lowBits r + if highBits r = 0 then 523777 else 523776
  else lowBits r

section Offset

variable {r : ℤ}

theorem eq_lowBits_of_highBits_eq_zero (h : 0 ≤ r) (h' : r ≤ 8380416) (hhigh : highBits r = 0)
    (hlow : 0 ≤ lowBits r) : r = lowBits r := by
  rcases highBits_mul_add_lowBits h h' with hr | hr
  · omega
  · omega

theorem sub_corrected_eq (h : 0 ≤ r) (h' : r ≤ 8380416) (hint : Prop) [Decidable hint] :
    ∃ k, r - corrected r hint * 523776 = offset r hint + k * 8380417 := by
  have hrange := highBits_range r
  obtain ⟨k, hk⟩ : ∃ k, r - highBits r * 523776 = lowBits r + k * 8380417 := by
    rcases highBits_mul_add_lowBits h h' with hr | hr
    · exact ⟨0, by omega⟩
    · exact ⟨1, by omega⟩
  unfold corrected offset
  by_cases hh : hint
  swap
  · rw [if_neg hh, if_neg hh]
    exact ⟨k, hk⟩
  rw [if_pos hh, if_pos hh]
  by_cases hlow : 0 < lowBits r
  · rw [if_pos hlow, if_pos hlow]
    by_cases htop : highBits r = 15
    · rw [if_pos htop, htop]
      exact ⟨k + 1, by omega⟩
    · rw [if_neg htop, Int.emod_eq_of_lt (by omega) (by omega)]
      exact ⟨k, by omega⟩
  · rw [if_neg hlow, if_neg hlow]
    by_cases hbottom : highBits r = 0
    · rw [if_pos hbottom, hbottom]
      exact ⟨k - 1, by omega⟩
    · rw [if_neg hbottom, Int.emod_eq_of_lt (by omega) (by omega)]
      exact ⟨k, by omega⟩

/-- **The offset from the own bucket is at most `gamma2`**, and with a hint at most one more than twice
that. -/
theorem abs_offset_le (h : 0 ≤ r) (h' : r ≤ 8380416) (hint : Prop) [Decidable hint] :
    |offset r hint| ≤ if hint then 523777 else 261888 := by
  have hlow := lowBits_range h h'
  rw [abs_le]
  unfold offset
  split
  · split
    · split <;> omega
    · split <;> omega
  · omega

/-- **The bound is reached at 0 only**, which a hint moves from bucket 0 to bucket 15. -/
theorem abs_offset_eq_iff (h : 0 ≤ r) (h' : r ≤ 8380416) {hint : Prop} [Decidable hint] (hh : hint) :
    |offset r hint| = 523777 ↔ r = 0 := by
  have hrange := lowBits_range h h'
  constructor
  · intro heq
    rw [abs_eq (by norm_num), offset, if_pos hh] at heq
    by_cases hlow : 0 < lowBits r
    · rw [if_pos hlow] at heq
      split at heq <;> omega
    · rw [if_neg hlow] at heq
      split at heq
      · next hhigh =>
        have hr := eq_lowBits_of_highBits_eq_zero h h' hhigh (by omega)
        omega
      · omega
  · rintro rfl
    rw [offset, if_pos hh]
    rfl

theorem valMinAbs_sub_corrected (h : 0 ≤ r) (h' : r ≤ 8380416) (hint : Prop) [Decidable hint] :
    ((r - corrected r hint * 523776 : ℤ) : Zq).valMinAbs = offset r hint := by
  have hle : |offset r hint| ≤ 4190208 :=
    (abs_offset_le h h' hint).trans (by split <;> norm_num)
  rw [Residue.intCast_eq_iff.2 (sub_corrected_eq h h' hint)]
  exact Poly.valMinAbs_intCast hle

end Offset

/-! ## The word function -/

/-- **A corrected high part stays close, and the hint shows.** For each coefficient the high part is one
of 16, a hint changes it, and what is left modulo `q` is at most `gamma2` without a hint and at most
`2 · gamma2 + 1` with one. -/
theorem useHint_close {r : Int32} (h : 0 ≤ r.toInt) (h' : r.toInt < Params.q.toInt) :
    (∀ hint, 0 ≤ (useHint r hint).toInt ∧ (useHint r hint).toInt ≤ 15) ∧
    useHint r 0 ≠ useHint r 1 ∧
    |((r.toInt - (useHint r 0).toInt * (2 * Params.gamma2.toInt) : ℤ) : Zq).valMinAbs| ≤
      Params.gamma2.toInt ∧
    |((r.toInt - (useHint r 1).toInt * (2 * Params.gamma2.toInt) : ℤ) : Zq).valMinAbs| ≤
      2 * Params.gamma2.toInt + 1 := by
  rw [Words.toInt_q] at h'
  have hle : r.toInt ≤ 8380416 := by omega
  have hnone : ¬(0 : Int32) ≠ 0 := not_not.2 rfl
  have hone : (1 : Int32) ≠ 0 := by decide
  have hbound (hint : Int32) :
      |((r.toInt - (useHint r hint).toInt * (2 * Params.gamma2.toInt) : ℤ) : Zq).valMinAbs| ≤
        if hint ≠ 0 then 523777 else 261888 := by
    rw [toInt_useHint hint h hle, toInt_gamma2]
    norm_num only
    rw [valMinAbs_sub_corrected h hle]
    exact abs_offset_le h hle _
  refine ⟨fun hint => ?_, fun heq => ?_, ?_, ?_⟩
  · rw [toInt_useHint hint h hle]
    exact corrected_range _ _
  · have hsame := congrArg Int32.toInt heq
    rw [toInt_useHint 0 h hle, toInt_useHint 1 h hle, corrected_eq_iff] at hsame
    exact hnone (hsame.2 hone)
  · exact (hbound 0).trans_eq (if_neg hnone)
  · exact (hbound 1).trans_eq (if_pos hone)

/-- At 0 the hint leads to bucket 15, which is as far away as the bound allows. -/
theorem useHint_close_zero :
    0 ≤ (0 : Int32).toInt ∧ (0 : Int32).toInt < Params.q.toInt ∧ useHint 0 0 ≠ useHint 0 1 ∧
      |(((0 : Int32).toInt - (useHint 0 1).toInt * (2 * Params.gamma2.toInt) : ℤ) : Zq).valMinAbs| ≤
        2 * Params.gamma2.toInt + 1 ∧
      useHint 0 1 = 15 ∧ offset 0 True = 2 * Params.gamma2.toInt + 1 := by
  have hlt : (0 : Int32).toInt < Params.q.toInt := by decide
  obtain ⟨-, hseparate, -, hclose⟩ := useHint_close le_rfl hlt
  exact ⟨le_rfl, hlt, hseparate, hclose, by decide, by decide⟩

end LatticeSignature.Rounding
