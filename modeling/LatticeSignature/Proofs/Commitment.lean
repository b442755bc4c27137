import LatticeSignature.Verification
import LatticeSignature.Proofs.Packed
import LatticeSignature.Proofs.Rounding

/-!
# Commitments in the ring

What a signer commits to and what a verifier recovers, in terms of ring elements and the
representatives of their coefficients in `[0, q)`.

* `Rq.highBits`, `Rq.lowBits`: the two parts of the canonical representatives.
* `encodeHigh`: the bytes of a vector of high parts.
* **`toInt_commitment`**: a signer commits to the high bits of `A y`.
* `verifierSide`, `recovered`, **`toInt_recoverHigh`**: a verifier corrects the high bits of
  `A z - c t1 2^13`.
-/

namespace LatticeSignature

/-! ## High and low bits of ring elements -/

namespace Rq

/-- The high bits of the representatives in `[0, q)`. -/
def highBits (a : Rq) (j : Fin 256) : ℤ := Rounding.highBits (a.coeff j).val

/-- The low bits of the representatives in `[0, q)`, as a ring element. -/
def lowBits (a : Rq) : Rq := ⟨fun j => (Rounding.lowBits (a.coeff j).val : ℤ)⟩

theorem val_range (x : Zq) : 0 ≤ (x.val : ℤ) ∧ (x.val : ℤ) ≤ 8380416 := by
  have := ZMod.val_lt x
  omega

end Rq

namespace Poly

theorem toInt_decompose {p : Poly .plain} (h : p.Within 0 8380416) (j : Fin 256) :
    (p.decompose.high.number j).toInt = p.element.highBits j ∧
      (p.decompose.low.number j).toInt = Rounding.lowBits (p.element.coeff j).val := by
  have hd := Rounding.toInt_decompose (h j).1 (h j).2
  rw [toInt_of_within h] at hd
  rw [decompose, number_map, number_map]
  exact hd

end Poly

/-- The bytes of a vector of high parts, two to a byte. -/
def encodeHigh (w : Fin 8 → Fin 256 → ℤ) : Bytes :=
  (List.ofFn fun i => halfByteEncode (w i)).flatten

theorem bytes_pack_eq_encodeHigh {v : PolyVec .plain 8} {w : Fin 8 → Fin 256 → ℤ}
    (h : ∀ i j, (v.number i j).toInt = w i j)
    (hw : ∀ i j, 0 ≤ w i j ∧ w i j ≤ 15) : (PolyVec.pack .w1 v).bytes = encodeHigh w := by
  have hv : v.Within 0 15 := by
    intro i j
    rw [← PolyVec.number, h]
    exact hw i j
  rw [PolyVec.bytes_pack_w1 hv, encodeHigh]
  congr 2
  funext i
  congr 1
  funext j
  exact h i j

/-! ## The signer -/

theorem element_lift_mul_transform {A : Matrix} {y : PolyVec .plain 7} {B : ℤ}
    (hA : A.Within 0 8380416) (hy : y.Within (-B) B) (hB : B ≤ 2080440319) (i : Fin 8) :
    ((A.mul y.transform).reduce.inverseTransform.get i).lift.element = A.product y.element i ∧
      ((A.mul y.transform).reduce.inverseTransform.get i).lift.Within 0 8380416 := by
  have h1 := Matrix.element_mul_transform hA hy hB i
  have h2 := Poly.element_lift h1.2 (by norm_num) (by norm_num)
  exact ⟨h2.1.trans h1.1, h2.2⟩

/-- **A signer commits to the high bits of `A y`** and keeps the low bits. -/
theorem toInt_commitment {A : Matrix} {y : PolyVec .plain 7} {B : ℤ} (hA : A.Within 0 8380416)
    (hy : y.Within (-B) B) (hB : B ≤ 2080440319) (i : Fin 8) (j : Fin 256) :
    ((commitment A y).high.number i j).toInt = (A.product y.element i).highBits j ∧
      ((commitment A y).low.number i j).toInt =
        Rounding.lowBits ((A.product y.element i).coeff j).val := by
  have h := element_lift_mul_transform hA hy hB i
  have hd := Poly.toInt_decompose h.2 j
  rw [h.1] at hd
  unfold commitment
  rw [PolyVec.number, PolyVec.number, PolyVec.get_decompose_high, PolyVec.get_decompose_low,
    PolyVec.get_lift]
  exact hd

theorem within_commitment_high {A : Matrix} {y : PolyVec .plain 7} {B : ℤ} (hA : A.Within 0 8380416)
    (hy : y.Within (-B) B) (hB : B ≤ 2080440319) : (commitment A y).high.Within 0 15 := by
  intro i j
  rw [← PolyVec.number, (toInt_commitment hA hy hB i j).1]
  exact Rounding.highBits_range _

theorem within_commitment_low {A : Matrix} {y : PolyVec .plain 7} {B : ℤ} (hA : A.Within 0 8380416)
    (hy : y.Within (-B) B) (hB : B ≤ 2080440319) :
    (commitment A y).low.Within (-261888) 261888 := by
  intro i j
  have hval := Rq.val_range ((A.product y.element i).coeff j)
  rw [← PolyVec.number, (toInt_commitment hA hy hB i j).2]
  exact Rounding.lowBits_range hval.1 hval.2

theorem bytes_pack_commitment {A : Matrix} {y : PolyVec .plain 7} {B : ℤ} (hA : A.Within 0 8380416)
    (hy : y.Within (-B) B) (hB : B ≤ 2080440319) :
    (PolyVec.pack .w1 (commitment A y).high).bytes =
      encodeHigh fun i => (A.product y.element i).highBits :=
  bytes_pack_eq_encodeHigh (fun i j => (toInt_commitment hA hy hB i j).1)
    fun _ _ => Rounding.highBits_range _

theorem toInt_responseBound : (Params.gamma1 - Params.beta).toInt = 524288 - 120 := rfl

/-! ## The verifier -/

/-- `A z - c t1 2^13`, row by row. -/
noncomputable def verifierSide (A : Matrix) (c : Rq) (t1 : Fin 8 → Rq) (z : Fin 7 → Rq)
    (i : Fin 8) : Rq :=
  A.product z i - c * (8192 * t1 i)

open Classical in
/-- The high bits that a verifier finds with a hint. -/
noncomputable def recovered (w : Fin 8 → Rq) (hint : Fin 8 → Fin 256 → Prop) (i : Fin 8)
    (j : Fin 256) : ℤ :=
  Rounding.corrected ((w i).coeff j).val (hint i j)

open Classical in
theorem recovered_range (w : Fin 8 → Rq) (hint : Fin 8 → Fin 256 → Prop) (i : Fin 8)
    (j : Fin 256) : 0 ≤ recovered w hint i j ∧ recovered w hint i j ≤ 15 :=
  Rounding.corrected_range _ _

section Verifier

variable {A : Matrix} {c : Poly .plain} {t1 : PolyVec .plain 8} {z : PolyVec .plain 7}

theorem element_verifierSide (hA : A.Within 0 8380416) (hc : c.Within (-1) 1) (ht : t1.Within 0 1023)
    (hz : z.Within (-524288) 524288) (i : Fin 8) :
    let w := (A.mul z.transform).sub (t1.shiftLeft.transform.scale c.transform)
    (w.reduce.inverseTransform.lift.get i).element = verifierSide A c.element t1.element z.element i ∧
      (w.reduce.inverseTransform.lift.get i).Within 0 8380416 := by
  have h1 := Matrix.element_mul hA hz (by norm_num) i
  have h2 := Poly.element_shiftLeft (ht i)
  have h3 := Poly.element_transform (h2.2.mono (by norm_num : (-8380416 : ℤ) ≤ 0) le_rfl) (by norm_num)
  have h4 := Poly.element_transform hc (by norm_num)
  have h5 := Poly.within_mulMontgomery (M := 8380416) h4.2 h3.2 (by norm_num)
  have h6 := Poly.element_sub h1.2 h5 (by norm_num) (by norm_num)
  have h7 := Poly.element_reduce h6.2 (by norm_num)
  have h8 := Poly.element_inverseTransform (h7.2.mono (by norm_num) (by norm_num))
  have h9 := Poly.element_lift h8.2 (by norm_num) (by norm_num)
  intro w
  rw [PolyVec.get_lift, PolyVec.get_inverseTransform, PolyVec.get_reduce, PolyVec.get_sub,
    PolyVec.get_scale, PolyVec.get_transform, PolyVec.get_shiftLeft]
  refine ⟨?_, h9.2⟩
  rw [h9.1, h8.1, h7.1, h6.1, mul_sub, h1.1, Poly.element_mulMontgomery, h4.1, h3.1,
    h2.1]
  rfl

/-- **A verifier corrects the high bits of `A z - c t1 2^13`.** -/
theorem toInt_recoverHigh (hA : A.Within 0 8380416) (hc : c.Within (-1) 1) (ht : t1.Within 0 1023)
    (hz : z.Within (-524288) 524288) (hint : PolyVec .plain 8) (i : Fin 8) (j : Fin 256) :
    ((recoverHigh A c.transform t1 z hint).number i j).toInt =
      recovered (verifierSide A c.element t1.element z.element) (fun i j => hint.number i j ≠ 0) i j := by
  have h := element_verifierSide hA hc ht hz i
  have hu := Rounding.toInt_useHint (hint.number i j) (h.2 j).1 (h.2 j).2
  rw [Poly.toInt_of_within h.2, h.1] at hu
  unfold recoverHigh recovered
  rw [PolyVec.number, PolyVec.get_useHint, Poly.useHint, Poly.number_zipWith]
  convert hu

theorem within_recoverHigh (hA : A.Within 0 8380416) (hc : c.Within (-1) 1) (ht : t1.Within 0 1023)
    (hz : z.Within (-524288) 524288) (hint : PolyVec .plain 8) :
    (recoverHigh A c.transform t1 z hint).Within 0 15 := by
  intro i j
  rw [← PolyVec.number, toInt_recoverHigh hA hc ht hz hint i j]
  exact recovered_range _ _ i j

theorem bytes_pack_recoverHigh (hA : A.Within 0 8380416) (hc : c.Within (-1) 1)
    (ht : t1.Within 0 1023) (hz : z.Within (-524288) 524288) (hint : PolyVec .plain 8) :
    (PolyVec.pack .w1 (recoverHigh A c.transform t1 z hint)).bytes =
      encodeHigh (recovered (verifierSide A c.element t1.element z.element)
        fun i j => hint.number i j ≠ 0) :=
  bytes_pack_eq_encodeHigh (toInt_recoverHigh hA hc ht hz hint) (recovered_range _ _)

end Verifier

end LatticeSignature
