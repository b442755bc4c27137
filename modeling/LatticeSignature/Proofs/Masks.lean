import LatticeSignature.Proofs.Checked.Poly
import LatticeSignature.Proofs.Hint

/-!
# Masks and branches

Norms, hints and corrections are decided on sign bits and masks, so that the course of an evaluation
does not depend on what is looked at. Each of them is compared with its definition by cases, on all
words for which no result leaves its type.

* `Poly.HasNormBelow`, `PolyVec.HasNormBelow`: what a norm test is about.
* `Rounding.makeHint_zero_or_one`: a hint is a single bit, whatever it is made of.
* `HighLow.corrected`: a high part and its neighbours.
* **`masks_agree_with_branches`**: norm tests, hints, their number and the corrections.
-/

namespace LatticeSignature

open Params

/-! ## Norms -/

theorem toInt_q_div_eight : (q.toInt - 1) / 8 = 1047552 := rfl

namespace Poly

variable {d : Domain} {p : Poly d} {bound : Int32}

/-- All absolute values are below a bound that is at most `(q - 1) / 8`. -/
def HasNormBelow (p : Poly d) (bound : ℤ) : Prop :=
  bound ≤ (q.toInt - 1) / 8 ∧ ∀ j, |(p.number j).toInt| < bound

theorem normBelow_of_lt (h : 1047552 < bound.toInt) : p.normBelow bound = false := by
  have hbound : ¬bound ≤ 1047552 := fun hle => absurd (Int32.le_iff_toInt_le.1 hle) (not_le.2 h)
  rw [normBelow, decide_eq_false hbound, Bool.false_and]

/-- **The norm test by cases**: a bound that is too large fails, and no other bound does unless a number
reaches it. -/
theorem normBelow_iff_hasNormBelow (hp : p.Within (-1073741824) 1073741823) (hb : 1 ≤ bound.toInt) :
    p.normBelow bound = true ↔ p.HasNormBelow bound.toInt := by
  rw [HasNormBelow, toInt_q_div_eight]
  by_cases hle : bound.toInt ≤ 1047552
  · rw [normBelow_iff hp hb hle]
    exact (and_iff_right hle).symm
  · rw [normBelow_of_lt (not_le.1 hle)]
    exact iff_of_false Bool.false_ne_true fun h => hle h.1

end Poly

namespace PolyVec

variable {d : Domain} {n : ℕ} {v : PolyVec d n} {bound : Int32}

/-- All absolute values in all entries are below a bound that is at most `(q - 1) / 8`. -/
def HasNormBelow (v : PolyVec d n) (bound : ℤ) : Prop :=
  bound ≤ (q.toInt - 1) / 8 ∧ ∀ i j, |(v.number i j).toInt| < bound

theorem hasNormBelow_iff (hn : 0 < n) (bound : ℤ) :
    v.HasNormBelow bound ↔ ∀ i, (v.get i).HasNormBelow bound :=
  ⟨fun h i => ⟨h.1, h.2 i⟩, fun h => ⟨(h ⟨0, hn⟩).1, fun i => (h i).2⟩⟩

theorem normBelow_iff_hasNormBelow (hn : 0 < n) (hv : v.Within (-1073741824) 1073741823)
    (hb : 1 ≤ bound.toInt) : v.normBelow bound = true ↔ v.HasNormBelow bound.toInt := by
  rw [normBelow_iff, hasNormBelow_iff hn]
  exact forall_congr' fun i => Poly.normBelow_iff_hasNormBelow (hv i) hb

end PolyVec

/-! ## Hints -/

namespace Rounding

/-- A hint is a single bit, even where a sum wraps around. -/
theorem makeHint_zero_or_one (low high : Int32) : makeHint low high = 0 ∨ makeHint low high = 1 :=
  (Words.and_one_zero_or_one _).imp (fun h => congrArg UInt32.toInt32 (UInt32.eq_of_toBitVec_eq h))
    fun h => congrArg UInt32.toInt32 (UInt32.eq_of_toBitVec_eq h)

theorem makeHint_eq_one_iff {low : Int32} (h : |low.toInt| ≤ 2 ^ 31 - 1 - gamma2.toInt) (high : Int32) :
    checkedMakeHint low high = .ok (makeHint low high) ∧
      (makeHint low high = 1 ↔ gamma2.toInt < low.toInt ∨ low.toInt < -gamma2.toInt ∨
        low.toInt = -gamma2.toInt ∧ high ≠ 0) := by
  obtain ⟨hlo, hhi⟩ := abs_le.1 h
  have hhigh : high ≠ 0 ↔ high.toInt ≠ 0 := not_congr Int32.toInt_inj.symm
  refine ⟨checkedMakeHint_eq hlo hhi high, ?_⟩
  rw [makeHint_eq hlo hhi, hhigh]
  change _ ↔ HintNeeded low.toInt high.toInt
  split
  · next hneeded => exact iff_of_true rfl hneeded
  · next hneeded => exact iff_of_false (by decide) hneeded

end Rounding

theorem Poly.makeHint_zero_or_one (low high : Poly .plain) (j : Fin 256) :
    (low.makeHint high).number j = 0 ∨ (low.makeHint high).number j = 1 := by
  rw [makeHint, number_zipWith]
  exact Rounding.makeHint_zero_or_one _ _

theorem PolyVec.makeHint_zero_or_one {n : ℕ} (low high : PolyVec .plain n) (i : Fin n) (j : Fin 256) :
    (low.makeHint high).number i j = 0 ∨ (low.makeHint high).number i j = 1 := by
  rw [number, get_makeHint]
  exact Poly.makeHint_zero_or_one _ _ j

/-! ## Corrections -/

/-- The high part, or with a hint its neighbour on the side of the low part. -/
def HighLow.corrected (parts : HighLow) (hint : Int32) : ℤ :=
  if hint = 0 then parts.high.toInt
  else if 0 < parts.low.toInt then (parts.high.toInt + 1) % 16
  else (parts.high.toInt - 1) % 16

theorem Rounding.useHint_eq_corrected {a : Int32} (h : 0 ≤ a.toInt) (h' : a.toInt < q.toInt)
    (hint : Int32) :
    checkedUseHint a hint = .ok (useHint a hint) ∧
      (useHint a hint).toInt = (decompose a).corrected hint := by
  have hle : a.toInt ≤ 8380416 := Int.le_of_lt_add_one h'
  obtain ⟨hhigh, hlow⟩ := toInt_decompose h hle
  refine ⟨checkedUseHint_eq h hle hint, ?_⟩
  rw [toInt_useHint hint h hle, HighLow.corrected, hhigh, hlow, Rounding.corrected, ite_not]

namespace Poly

variable {p : Poly .plain}

theorem useHint_eq_corrected (hp : ∀ j, 0 ≤ (p.number j).toInt ∧ (p.number j).toInt < q.toInt)
    (hint : Poly .plain) :
    p.checkedUseHint hint = .ok (p.useHint hint) ∧
      ∀ j, ((p.useHint hint).number j).toInt =
        (Rounding.decompose (p.number j)).corrected (hint.number j) := by
  have hword := fun j => Rounding.useHint_eq_corrected (hp j).1 (hp j).2 (hint.number j)
  refine ⟨checkedZipWith_eq fun j => (hword j).1, fun j => ?_⟩
  rw [useHint, number_zipWith]
  exact (hword j).2

end Poly

theorem PolyVec.useHint_eq_corrected {n : ℕ} {v : PolyVec .plain n}
    (hv : ∀ i j, 0 ≤ (v.number i j).toInt ∧ (v.number i j).toInt < q.toInt) (hint : PolyVec .plain n) :
    v.checkedUseHint hint = .ok (v.useHint hint) ∧
      ∀ i j, ((v.useHint hint).number i j).toInt =
        (Rounding.decompose (v.number i j)).corrected (hint.number i j) := by
  have hentry := fun i => Poly.useHint_eq_corrected (hv i) (hint.get i)
  refine ⟨Checked.eachPair_eq fun i => (hentry i).1, fun i j => ?_⟩
  rw [number, get_useHint]
  exact (hentry i).2 j

/-! ## All of them -/

/-- **Masks decide what branches decide.** A norm test holds if no number of a polynomial or vector
reaches the bound. A hint is set if the low part has left its bucket, and the number of hints is the
number of ones among them. A hint of any value other than zero moves the high part by one, around the
ends. -/
theorem masks_agree_with_branches :
    (∀ (d : Domain) (bound : Int32), 1 ≤ bound.toInt →
      (∀ p : Poly d, (∀ j, |(p.number j).toInt| < 2 ^ 30) →
        p.checkedNormBelow bound = .ok (p.normBelow bound) ∧
          (p.normBelow bound = true ↔ p.HasNormBelow bound.toInt)) ∧
      ∀ (n : ℕ) (v : PolyVec d n), 0 < n → (∀ i j, |(v.number i j).toInt| < 2 ^ 30) →
        v.checkedNormBelow bound = .ok (v.normBelow bound) ∧
          (v.normBelow bound = true ↔ v.HasNormBelow bound.toInt)) ∧
    ((∀ low high : Int32, |low.toInt| ≤ 2 ^ 31 - 1 - gamma2.toInt →
        Rounding.checkedMakeHint low high = .ok (Rounding.makeHint low high) ∧
          (Rounding.makeHint low high = 1 ↔ gamma2.toInt < low.toInt ∨ low.toInt < -gamma2.toInt ∨
            low.toInt = -gamma2.toInt ∧ high ≠ 0)) ∧
      (∀ low high : Poly .plain,
        (low.makeHint high).total =
          (Finset.univ.filter fun j => (low.makeHint high).number j = 1).card ∧
        ((∀ j, |(low.number j).toInt| ≤ 2 ^ 31 - 1 - gamma2.toInt) →
          low.checkedMakeHint high = .ok (low.makeHint high, (low.makeHint high).total))) ∧
      ∀ (n : ℕ) (low high : PolyVec .plain n),
        (low.makeHint high).total =
          (Finset.univ.filter fun x : Fin n × Fin 256 => (low.makeHint high).number x.1 x.2 = 1).card ∧
        ((∀ i j, |(low.number i j).toInt| ≤ 2 ^ 31 - 1 - gamma2.toInt) →
          low.checkedMakeHint high = .ok (low.makeHint high, (low.makeHint high).total))) ∧
    (∀ a hint : Int32, 0 ≤ a.toInt → a.toInt < q.toInt →
      Rounding.checkedUseHint a hint = .ok (Rounding.useHint a hint) ∧
        (Rounding.useHint a hint).toInt = (Rounding.decompose a).corrected hint) ∧
    (∀ p hint : Poly .plain, (∀ j, 0 ≤ (p.number j).toInt ∧ (p.number j).toInt < q.toInt) →
      p.checkedUseHint hint = .ok (p.useHint hint) ∧
        ∀ j, ((p.useHint hint).number j).toInt =
          (Rounding.decompose (p.number j)).corrected (hint.number j)) ∧
    ∀ (n : ℕ) (v hint : PolyVec .plain n),
      (∀ i j, 0 ≤ (v.number i j).toInt ∧ (v.number i j).toInt < q.toInt) →
      v.checkedUseHint hint = .ok (v.useHint hint) ∧
        ∀ i j, ((v.useHint hint).number i j).toInt =
          (Rounding.decompose (v.number i j)).corrected (hint.number i j) := by
  refine ⟨fun d bound hb => ⟨fun p hp => ?_, fun n v hn hv => ?_⟩,
    ⟨fun low high h => Rounding.makeHint_eq_one_iff h high, fun low high => ⟨?_, fun h => ?_⟩,
      fun n low high => ⟨?_, fun h => ?_⟩⟩,
    fun a hint h h' => Rounding.useHint_eq_corrected h h' hint,
    fun p hint hp => Poly.useHint_eq_corrected hp hint,
    fun n v hint hv => PolyVec.useHint_eq_corrected hv hint⟩
  · have hwithin : p.Within (-1073741824) 1073741823 :=
      (Poly.within_of_abs_lt hp).mono (by norm_num) (by norm_num)
    exact ⟨Poly.checkedNormBelow_eq hwithin (by linarith), Poly.normBelow_iff_hasNormBelow hwithin hb⟩
  · have hwithin : v.Within (-1073741824) 1073741823 :=
      (PolyVec.within_of_abs_lt hv).mono (by norm_num) (by norm_num)
    exact ⟨PolyVec.checkedNormBelow_eq hwithin (by linarith),
      PolyVec.normBelow_iff_hasNormBelow hn hwithin hb⟩
  · exact Poly.total_eq_card_ones (Poly.makeHint_zero_or_one low high)
  · exact Poly.checkedMakeHint_eq (fun j => abs_le.1 (h j)) high
  · exact PolyVec.total_eq_card_ones (PolyVec.makeHint_zero_or_one low high)
  · exact PolyVec.checkedMakeHint_eq (fun i j => abs_le.1 (h i j)) high

/-- Numbers on the edge of a bound, of a bucket and of the folded part. -/
theorem masks_agree_with_branches_edge :
    let p : Poly .plain := .ofFn fun j => if j.val = 0 then 0 else 261889
    let v : PolyVec .plain 8 := .ofFn fun _ => p
    (p.normBelow 261890 = true ∧ v.checkedNormBelow 261889 = .ok false) ∧
      (Rounding.makeHint (-261888) 0 ≠ 1 ∧ Rounding.makeHint (-261888) (-2147483648) = 1 ∧
        p.checkedMakeHint p = .ok (p.makeHint p, (p.makeHint p).total) ∧
        v.checkedMakeHint v = .ok (v.makeHint v, (v.makeHint v).total)) ∧
      (Rounding.useHint 8118529 1).toInt = 15 ∧ ((p.useHint p).number 1).toInt = 0 ∧
        ((v.useHint v).number 7 0).toInt = 0 := by
  intro p v
  have hp : ∀ j, p.number j = if j.val = 0 then 0 else 261889 := fun j => Poly.number_ofFn _ j
  have hv : ∀ i j, v.number i j = p.number j := fun i j => by rw [PolyVec.number, PolyVec.get_ofFn]
  have hrange : ∀ j, 0 ≤ (p.number j).toInt ∧ (p.number j).toInt ≤ 261889 := by
    intro j
    rw [hp]
    split <;> decide
  have habs : ∀ j, |(p.number j).toInt| ≤ 261889 := fun j =>
    abs_le.2 ⟨by linarith [(hrange j).1], (hrange j).2⟩
  have hmodulus : ∀ j, 0 ≤ (p.number j).toInt ∧ (p.number j).toInt < q.toInt := fun j =>
    ⟨(hrange j).1, (hrange j).2.trans_lt (by decide)⟩
  have hbucket : ∀ j, |(p.number j).toInt| ≤ 2 ^ 31 - 1 - gamma2.toInt := fun j =>
    (habs j).trans (by decide)
  have hhalf : ∀ j, |(p.number j).toInt| < 2 ^ 30 := fun j => (habs j).trans_lt (by norm_num)
  obtain ⟨hnorm, ⟨hmake, hmakePoly, hmakeVec⟩, huse, husePoly, huseVec⟩ := masks_agree_with_branches
  have hbelow := ((hnorm .plain 261890 (by decide)).1 p hhalf).2.2
    ⟨by decide, fun j => (habs j).trans_lt (by decide)⟩
  obtain ⟨hchecked, hiff⟩ :=
    (hnorm .plain 261889 (by decide)).2 8 v (by decide) fun i j => by rw [hv]; exact hhalf j
  have hreached : v.normBelow 261889 = false := Bool.eq_false_iff.2 fun h => by
    have hlt := (hiff.1 h).2 0 1
    rw [hv, hp] at hlt
    exact absurd hlt (by decide)
  refine ⟨⟨hbelow, hchecked.trans (by rw [hreached])⟩, ⟨?_, ?_, (hmakePoly p p).2 hbucket, ?_⟩,
    ?_, ?_, ?_⟩
  · exact fun h => absurd ((hmake (-261888) 0 (by decide)).2.1 h) (by decide)
  · exact (hmake (-261888) (-2147483648) (by decide)).2.2 (by decide)
  · exact (hmakeVec 8 v v).2 fun i j => by rw [hv]; exact hbucket j
  · rw [(huse 8118529 1 (by decide) (by decide)).2]
    decide
  · rw [(husePoly p p hmodulus).2, hp]
    decide
  · rw [(huseVec 8 v v fun i j => by rw [hv]; exact hmodulus j).2, hv, hp]
    decide

end LatticeSignature
