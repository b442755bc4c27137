import LatticeSignature.Proofs.Checked.Poly

/-!
# The buckets of coefficients

Division by `2 · gamma2`, which the program carries out by a multiplication and shifts, against its
definition: the quotient and the remainder around zero, where the topmost bucket counts as the lowest.

* `Rounding.IsSplit`: the definition; **`Rounding.isSplit_iff`**: it determines both parts.
* **`decompose_isSplit`**: the parts of every coefficient of a polynomial or vector are those two.
-/

namespace LatticeSignature

open Params

namespace Rounding

/-- The bucket `high` of `a`, and the distance `low` from its centre. What is left below `q` after the
last whole bucket is folded into bucket 0, whose centre counts as `q` there. -/
structure IsSplit (a high low : ℤ) : Prop where
  nonneg : 0 ≤ high
  le_fifteen : high ≤ 15
  modEq : a ≡ high * (2 * gamma2.toInt) + low [ZMOD q.toInt]
  of_le : a ≤ q.toInt - 1 - gamma2.toInt →
    -gamma2.toInt < low ∧ low ≤ gamma2.toInt ∧ a = high * (2 * gamma2.toInt) + low
  of_lt : q.toInt - 1 - gamma2.toInt < a →
    high = 0 ∧ low = a - q.toInt ∧ -gamma2.toInt ≤ low ∧ low ≤ -1

theorem toInt_q_sub_gamma2 : q.toInt - 1 - gamma2.toInt = 8118528 := rfl

theorem isSplit_bits {a : ℤ} (h : 0 ≤ a) (h' : a ≤ 8380416) : IsSplit a (highBits a) (lowBits a) := by
  obtain ⟨hlo, hhi⟩ := highBits_range a
  refine ⟨hlo, hhi, ?_, ?_, ?_⟩
  · rw [Words.toInt_q, toInt_gamma2]
    refine Int.modEq_iff_dvd.2 ?_
    rcases highBits_mul_add_lowBits h h' with hsum | hsum
    · exact ⟨0, by linarith⟩
    · exact ⟨-1, by linarith⟩
  · rw [toInt_q_sub_gamma2, toInt_gamma2]
    intro hle
    rw [lowBits, if_neg (by omega), highBits]
    omega
  · rw [toInt_q_sub_gamma2, toInt_gamma2, Words.toInt_q]
    intro hlt
    obtain ⟨hhigh, hlow⟩ := bits_of_folded hlt h'
    rw [hhigh, hlow]
    omega

/-- **A coefficient splits in one way only.** -/
theorem isSplit_iff {a : ℤ} (h : 0 ≤ a) (h' : a ≤ 8380416) (high low : ℤ) :
    IsSplit a high low ↔ high = highBits a ∧ low = lowBits a := by
  constructor
  · intro s
    by_cases hc : 8118528 < a
    · obtain ⟨rfl, rfl, -⟩ := s.of_lt hc
      obtain ⟨hhigh, hlow⟩ := bits_of_folded hc h'
      exact ⟨hhigh.symm, hlow.symm⟩
    · obtain ⟨hlo, hhi, ha⟩ := s.of_le (not_lt.1 hc)
      obtain ⟨hhigh, hlow⟩ := bits_of_bucket s.nonneg s.le_fifteen hlo hhi
      rw [show a = high * 523776 + low from ha]
      exact ⟨hhigh.symm, hlow.symm⟩
  · rintro ⟨rfl, rfl⟩
    exact isSplit_bits h h'

end Rounding

theorem Poly.isSplit_decompose_iff {p : Poly .plain} (hp : p.Within 0 8380416) (j : Fin 256) (high low : ℤ) :
    Rounding.IsSplit (p.number j).toInt high low ↔
      high = (p.decompose.high.number j).toInt ∧ low = (p.decompose.low.number j).toInt := by
  obtain ⟨hhigh, hlow⟩ := Rounding.toInt_decompose (hp j).1 (hp j).2
  rw [decompose, number_map, number_map, hhigh, hlow]
  exact Rounding.isSplit_iff (hp j).1 (hp j).2 high low

/-- **Splitting at multiples of `2 · gamma2`** returns the quotient and the remainder of each
coefficient in `[0, q)`, and no other pair has their property. -/
theorem decompose_isSplit :
    (∀ p : Poly .plain, (∀ j, 0 ≤ (p.number j).toInt ∧ (p.number j).toInt < q.toInt) →
      p.checkedDecompose = .ok p.decompose ∧
        ∀ j high low, Rounding.IsSplit (p.number j).toInt high low ↔
          high = (p.decompose.high.number j).toInt ∧ low = (p.decompose.low.number j).toInt) ∧
    ∀ (n : ℕ) (v : PolyVec .plain n),
      (∀ i j, 0 ≤ (v.number i j).toInt ∧ (v.number i j).toInt < q.toInt) →
      v.checkedDecompose = .ok v.decompose ∧
        ∀ i j high low, Rounding.IsSplit (v.number i j).toInt high low ↔
          high = (v.decompose.high.number i j).toInt ∧ low = (v.decompose.low.number i j).toInt := by
  have hwithin : ∀ p : Poly .plain, (∀ j, 0 ≤ (p.number j).toInt ∧ (p.number j).toInt < q.toInt) →
      p.Within 0 8380416 := fun p hp j => ⟨(hp j).1, Int.le_of_lt_add_one (hp j).2⟩
  refine ⟨fun p hp => ?_, fun n v hv => ?_⟩
  · exact ⟨Poly.checkedDecompose_eq (hwithin p hp), Poly.isSplit_decompose_iff (hwithin p hp)⟩
  have hv' : v.Within 0 8380416 := fun i => hwithin _ (hv i)
  refine ⟨PolyVec.checkedDecompose_eq hv', fun i j high low => ?_⟩
  rw [Poly.isSplit_decompose_iff (hv' i) j high low, ← PolyVec.get_decompose_high, ← PolyVec.get_decompose_low]

/-- The last coefficient that is taken as it is, and the first that is folded. -/
theorem decompose_isSplit_edge :
    let p : Poly .plain := .ofFn fun j => if j.val % 2 = 0 then 8118528 else 8118529
    p.checkedDecompose = .ok p.decompose ∧
      ((15 : ℤ) = (p.decompose.high.number 0).toInt ∧ (261888 : ℤ) = (p.decompose.low.number 0).toInt) ∧
      (0 : ℤ) = (p.decompose.high.number 1).toInt ∧ (-261888 : ℤ) = (p.decompose.low.number 1).toInt := by
  intro p
  have hp : ∀ j, 0 ≤ (p.number j).toInt ∧ (p.number j).toInt < q.toInt := by
    intro j
    rw [Poly.number_ofFn]
    split <;> decide
  obtain ⟨hc, hs⟩ := decompose_isSplit.1 p hp
  refine ⟨hc, (hs 0 15 261888).1 ?_, (hs 1 0 (-261888)).1 ?_⟩
  · rw [Poly.number_ofFn]
    exact ⟨by decide, by decide, by decide, by decide, by decide⟩
  · rw [Poly.number_ofFn]
    exact ⟨by decide, by decide, by decide, by decide, by decide⟩

end LatticeSignature
