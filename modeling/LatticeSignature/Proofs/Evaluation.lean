import LatticeSignature.Proofs.Checked.Poly
import Mathlib.Algebra.Polynomial.Eval.Degree

/-!
# Evaluation and multiplication

What the two transforms mean, in terms of polynomials over the residue classes: the one evaluates at
the 256 roots, the other finds the polynomial of degree below 256 with given values. Together with the
pointwise product they multiply as on paper, where `X ^ 256` counts as `-1`.

* `Rq.polynomial`: a ring element as a polynomial; **`Rq.eq_polynomial_iff`**: its values determine it.
* **`Poly.transforms_evaluate`**: the meaning and the ranges of both transforms.
* `Poly.negacyclic`: the schoolbook product over the integers.
* **`Poly.toInt_number_mul`**: the product through the transform is the schoolbook product.
-/

namespace LatticeSignature

open scoped Polynomial

/-! ## Ring elements as polynomials -/

namespace Rq

open Polynomial (coeff_monomial_same coeff_monomial_of_ne coeff_eq_zero_of_degree_lt degree_sum_le
  degree_monomial_le eval_eq_sum_range' eval_finsetSum eval_monomial finsetSum_coeff monomial
  natDegree_lt_iff_degree_lt)

/-- The polynomial with the coefficients of an element. -/
noncomputable def polynomial (a : Rq) : Zq[X] := ∑ i : Fin 256, monomial i.val (a.coeff i)

theorem eval_polynomial (a : Rq) (k : Fin 256) : a.polynomial.eval (root k) = value a k := by
  simp only [polynomial, eval_finsetSum, eval_monomial, value]

theorem coeff_polynomial (a : Rq) (i : Fin 256) : a.polynomial.coeff i = a.coeff i := by
  rw [polynomial, finsetSum_coeff, Finset.sum_eq_single i]
  · exact coeff_monomial_same _ _
  · exact fun j _ hj => coeff_monomial_of_ne _ fun h => hj (Fin.ext h.symm)
  · exact fun h => absurd (Finset.mem_univ _) h

theorem degree_polynomial_lt (a : Rq) : a.polynomial.degree < 256 := by
  refine (degree_sum_le _ _).trans_lt ((Finset.sup_lt_iff (WithBot.bot_lt_coe 256)).2 fun i _ => ?_)
  exact (degree_monomial_le _ _).trans_lt (WithBot.coe_lt_coe.2 i.isLt)

/-- The element with the coefficients of a polynomial of degree below 256. -/
noncomputable def ofPolynomial (f : Zq[X]) : Rq := ⟨fun i => f.coeff i⟩

theorem value_ofPolynomial {f : Zq[X]} (h : f.degree < 256) (k : Fin 256) :
    value (ofPolynomial f) k = f.eval (root k) := by
  have hnat : f.natDegree < 256 := by
    by_cases hf : f = 0
    · simp [hf]
    · exact (natDegree_lt_iff_degree_lt hf).2 h
  rw [eval_eq_sum_range' hnat, Finset.sum_range]
  rfl

theorem polynomial_ofPolynomial {f : Zq[X]} (h : f.degree < 256) : (ofPolynomial f).polynomial = f := by
  refine Polynomial.ext fun n => ?_
  by_cases hn : n < 256
  · exact coeff_polynomial (ofPolynomial f) ⟨n, hn⟩
  · have hle : (256 : WithBot ℕ) ≤ n := WithBot.coe_le_coe.2 (not_lt.1 hn)
    rw [coeff_eq_zero_of_degree_lt (h.trans_le hle),
      coeff_eq_zero_of_degree_lt ((ofPolynomial f).degree_polynomial_lt.trans_le hle)]

/-- **The values at the roots determine a polynomial** of degree below 256. -/
theorem eq_polynomial_iff {a : Rq} {f : Zq[X]} (h : f.degree < 256) :
    f = a.polynomial ↔ ∀ k : Fin 256, f.eval (root k) = value a k := by
  refine ⟨fun hf k => by rw [hf, eval_polynomial], fun hv => ?_⟩
  have hvalue : ∀ k, value (ofPolynomial f) k = value a k := by
    intro k
    rw [value_ofPolynomial h, hv]
  rw [← polynomial_ofPolynomial h, value_injective (funext hvalue)]

end Rq

/-! ## The transforms -/

namespace Poly

open Checked Residue

/-- The residues of 256 representatives as the coefficients of a polynomial. -/
noncomputable def polynomial (p : Poly .plain) : Zq[X] := p.element.polynomial

section InverseTransform

variable {v : Poly .transformed}

/-- **The inverse transform interpolates**: its residues are those of the element with the given
values, times the Montgomery factor. -/
theorem cls_inverseTransform (hv : v.Within (-8380416) 8380416) (i : Fin 256) :
    cls (v.inverseTransform.number i) = 2 ^ 32 * v.element.coeff i := by
  rw [← coeff_element, (element_inverseTransform hv).1, Rq.coeff_ofNat_mul]
  norm_num

theorem abs_inverseTransform_lt (hv : v.Within (-8380416) 8380416) (i : Fin 256) :
    |(v.inverseTransform.number i).toInt| < 8380417 := by
  have h := abs_le.2 ((element_inverseTransform hv).2 i)
  linarith

theorem eq_polynomial_element_iff {f : Zq[X]} (hf : f.degree < 256) : f = v.element.polynomial ↔
    ∀ k : Fin 256, f.eval (1753 ^ (2 * Rq.bitReverse k + 1)) = cls (v.number k) := by
  rw [Rq.eq_polynomial_iff hf, value_element]
  rfl

end InverseTransform

section Transform

variable {p : Poly .plain} {B : ℤ}

theorem cls_transform (hp : p.Within (-B) B) (hB : B ≤ 2080440319) (k : Fin 256) :
    cls (p.transform.number k) = p.polynomial.eval (1753 ^ (2 * Rq.bitReverse k + 1)) := by
  have h := congrFun (residues_transform hp (by linarith)).1 k
  rwa [← Rq.eval_polynomial] at h

theorem abs_transform_lt (hp : p.Within (-B) B) (hB : B ≤ 2080440319) (k : Fin 256) :
    |(p.transform.number k).toInt| < B + 8 * 8380417 := by
  have h := abs_le.2 ((residues_transform hp (by linarith)).2 k)
  linarith

theorem within_reduce_transform (hp : p.Within (-B) B) (hB : B ≤ 2080440319) :
    p.transform.reduce.element = p.element ∧ p.transform.reduce.Within (-8380416) 8380416 := by
  -- eight multiples of `q` would not leave the room that rounding needs; six do
  obtain ⟨hr, hrw⟩ := element_reduce (residues_transform hp (by linarith)).2 (by linarith)
  exact ⟨hr.trans (element_transform hp (by linarith)).1, hrw.mono (by norm_num) (by norm_num)⟩

theorem cls_inverseTransform_reduce_transform (hp : p.Within (-B) B) (hB : B ≤ 2080440319) (i : Fin 256) :
    cls (p.transform.reduce.inverseTransform.number i) = 2 ^ 32 * cls (p.number i) := by
  obtain ⟨hr, hrw⟩ := within_reduce_transform hp hB
  rw [cls_inverseTransform hrw, hr, coeff_element]

theorem checked_inverseTransform_reduce_transform (hp : p.Within (-B) B) (hB : B ≤ 2080440319) :
    (do
      let v ← p.checkedTransform
      let v ← v.checkedReduce
      v.checkedInverseTransform) = .ok p.transform.reduce.inverseTransform := by
  have hv := (residues_transform hp (by linarith)).2
  rw [bind_of_eq (checkedTransform_eq hp (by linarith)), bind_of_eq (checkedReduce_eq hv (by linarith))]
  exact checkedInverseTransform_eq (within_reduce_transform hp hB).2

end Transform

/-- **The meaning and the ranges of the transforms.** Where eight multiples of `q` fit above the
absolute values, the one evaluates at the odd powers of 1753 in bit-reversed order, and gives numbers
that the inverse takes back after a reduction. On numbers below `q`, the inverse in place never
leaves the 32-bit range and finds the one polynomial of degree below 256 that has them as its values,
times the Montgomery factor. -/
theorem transforms_evaluate :
    (∀ (p : Poly .plain) (B : ℤ), (∀ i, |(p.number i).toInt| ≤ B) → B + 8 * 8380417 < 2 ^ 31 →
      (∀ k : Fin 256,
        cls (p.transform.number k) = p.polynomial.eval (1753 ^ (2 * Rq.bitReverse k + 1)) ∧
          |(p.transform.number k).toInt| < B + 8 * 8380417) ∧
      (∀ i, cls (p.transform.reduce.inverseTransform.number i) = 2 ^ 32 * cls (p.number i)) ∧
      (do
        let v ← p.checkedTransform
        let v ← v.checkedReduce
        v.checkedInverseTransform) = .ok p.transform.reduce.inverseTransform) ∧
    ∀ v : Poly .transformed, (∀ k, |(v.number k).toInt| < 8380417) →
      v.checkedInverseTransform = .ok v.inverseTransform ∧
      (∀ i, |(v.inverseTransform.number i).toInt| < 8380417) ∧
      ∃ f : Zq[X], f.degree < 256 ∧
        (∀ k : Fin 256, f.eval (1753 ^ (2 * Rq.bitReverse k + 1)) = cls (v.number k)) ∧
        (∀ g : Zq[X], g.degree < 256 →
          (∀ k : Fin 256, g.eval (1753 ^ (2 * Rq.bitReverse k + 1)) = cls (v.number k)) → g = f) ∧
        ∀ i : Fin 256, cls (v.inverseTransform.number i) = 2 ^ 32 * f.coeff i := by
  constructor
  · intro p B hp hB
    have hp : p.Within (-B) B := fun i => abs_le.1 (hp i)
    have hB : B ≤ 2080440319 := by omega
    exact ⟨fun k => ⟨cls_transform hp hB k, abs_transform_lt hp hB k⟩,
      cls_inverseTransform_reduce_transform hp hB, checked_inverseTransform_reduce_transform hp hB⟩
  · intro v hv
    have hv := within_of_abs_lt hv
    have hdegree := v.element.degree_polynomial_lt
    exact ⟨checkedInverseTransform_eq hv, abs_inverseTransform_lt hv, v.element.polynomial, hdegree,
      (eq_polynomial_element_iff hdegree).1 rfl, fun g hg => (eq_polynomial_element_iff hg).2,
      fun i => by rw [cls_inverseTransform hv, Rq.coeff_polynomial]⟩

/-- Coefficients and values of both signs, as large as the ranges allow. -/
theorem transforms_evaluate_extreme :
    let p : Poly .plain := .ofFn fun i => if i.val % 2 = 0 then 2080440311 else -2080440311
    let v : Poly .transformed := .ofFn fun k => if k.val % 2 = 0 then 8380416 else -8380416
    (∀ k : Fin 256, cls (p.transform.number k) = p.polynomial.eval (1753 ^ (2 * Rq.bitReverse k + 1)) ∧
      |(p.transform.number k).toInt| < 2080440311 + 8 * 8380417) ∧
    v.checkedInverseTransform = .ok v.inverseTransform ∧
    ∀ i, |(v.inverseTransform.number i).toInt| < 8380417 := by
  intro p v
  have hp : ∀ i, |(p.number i).toInt| ≤ 2080440311 := by
    intro i
    rw [number_ofFn]
    split <;> decide
  have hv : ∀ k, |(v.number k).toInt| < 8380417 := by
    intro k
    rw [number_ofFn]
    split <;> decide
  obtain ⟨hforward, hinverse⟩ := transforms_evaluate
  exact ⟨(hforward p _ hp (by norm_num)).1, (hinverse v hv).1, (hinverse v hv).2.1⟩

/-! ## The product -/

/-- A coefficient of the product over the integers, where `X ^ 256` counts as `-1`. -/
def negacyclic (p r : Poly .plain) (k : Fin 256) : ℤ :=
  ∑ i : Fin 256, ∑ j : Fin 256,
    if i.val + j.val = k.val then (p.number i).toInt * (r.number j).toInt
    else if i.val + j.val = k.val + 256 then -((p.number i).toInt * (r.number j).toInt)
    else 0

theorem cast_negacyclic (p r : Poly .plain) (k : Fin 256) :
    (p.negacyclic r k : Zq) = (p.element * r.element).coeff k := by
  simp only [negacyclic, Int.cast_sum, Rq.coeff_mul, coeff_element, cls]
  refine Finset.sum_congr rfl fun i _ => Finset.sum_congr rfl fun j _ => ?_
  split
  · exact Int.cast_mul _ _
  · split
    · rw [Int.cast_neg, Int.cast_mul]
    · exact Int.cast_zero

/-- The product through the transform, checked step by step. -/
def checkedMul (p r : Poly .plain) : Checked (Poly .plain) := do
  let v ← p.checkedTransform
  let w ← r.checkedTransform
  let v ← v.checkedMulMontgomery w
  let p ← v.checkedInverseTransform
  let p ← p.checkedReduce
  p.checkedLift

section Product

variable {p r : Poly .plain}

theorem element_mul_transform (hp : p.Within (-67043336) 67043336) (hr : r.Within (-67043336) 67043336) :
    4294967296 * (p.transform.mulMontgomery r.transform).element = p.element * r.element ∧
      (p.transform.mulMontgomery r.transform).Within (-8380416) 8380416 := by
  obtain ⟨hpt, hptw⟩ := element_transform hp (by norm_num)
  obtain ⟨hrt, hrtw⟩ := element_transform hr (by norm_num)
  rw [← hpt, ← hrt]
  -- the square of sixteen multiples of `q` is just below `2 ^ 31 * q`
  exact ⟨element_mulMontgomery _ _, within_mulMontgomery hptw hrtw (by norm_num)⟩

/-- **The product through the transform is the product in the ring**, in `[0, q)`. -/
theorem element_mul (hp : p.Within (-67043336) 67043336) (hr : r.Within (-67043336) 67043336) :
    (p.mul r).element = p.element * r.element ∧ (p.mul r).Within 0 8380416 := by
  obtain ⟨hm, hmw⟩ := element_mul_transform hp hr
  obtain ⟨hi, hiw⟩ := element_inverseTransform hmw
  obtain ⟨hd, hdw⟩ := element_reduce hiw (by norm_num)
  obtain ⟨hl, hlw⟩ := element_lift hdw (by norm_num) (by norm_num)
  exact ⟨by rw [mul, hl, hd, hi, hm], hlw⟩

theorem checkedMul_eq (hp : p.Within (-67043336) 67043336) (hr : r.Within (-67043336) 67043336) :
    p.checkedMul r = .ok (p.mul r) := by
  have hmw := (element_mul_transform hp hr).2
  have hiw := (element_inverseTransform hmw).2
  have hdw := (element_reduce hiw (by norm_num)).2
  unfold checkedMul
  rw [bind_of_eq (checkedTransform_eq hp (by norm_num)), bind_of_eq (checkedTransform_eq hr (by norm_num)),
    bind_of_eq (checkedMulMontgomery_eq _ _),
    bind_of_eq (checkedInverseTransform_eq hmw), bind_of_eq (checkedReduce_eq hiw (by norm_num))]
  exact checkedLift_eq hdw (by norm_num)

end Product

/-- **Multiplication through the transform is negacyclic multiplication**, and does not leave the
32-bit range on the way, for coefficients up to eight times `q`. -/
theorem toInt_number_mul (p r : Poly .plain) (hp : ∀ i, |(p.number i).toInt| ≤ 8 * 8380417)
    (hr : ∀ i, |(r.number i).toInt| ≤ 8 * 8380417) :
    (∀ k, ((p.transform.mulMontgomery r.transform).inverseTransform.reduce.lift.number k).toInt =
      p.negacyclic r k % 8380417) ∧
      p.checkedMul r = .ok (p.transform.mulMontgomery r.transform).inverseTransform.reduce.lift := by
  have hp : p.Within (-67043336) 67043336 := fun i => abs_le.1 (hp i)
  have hr : r.Within (-67043336) 67043336 := fun i => abs_le.1 (hr i)
  obtain ⟨hm, hmw⟩ := element_mul hp hr
  refine ⟨fun k => ?_, checkedMul_eq hp hr⟩
  calc ((p.mul r).number k).toInt
      = ((p.element * r.element).coeff k).val := by rw [toInt_of_within hmw, hm]
    _ = p.negacyclic r k % 8380417 := by
      rw [← cast_negacyclic, ZMod.val_intCast]
      rfl

/-- Operands of both signs, as large as the range allows. -/
theorem toInt_number_mul_extreme :
    let p : Poly .plain := .ofFn fun i => 67043336 - Int32.ofNat i.val
    let r : Poly .plain := .ofFn fun i => Int32.ofNat i.val - 67043336
    (∀ k, ((p.transform.mulMontgomery r.transform).inverseTransform.reduce.lift.number k).toInt =
      p.negacyclic r k % 8380417) ∧
      p.checkedMul r = .ok (p.transform.mulMontgomery r.transform).inverseTransform.reduce.lift := by
  intro p r
  have hbound : ∀ i : Fin 256, |(67043336 - Int32.ofNat i.val).toInt| ≤ 8 * 8380417 ∧
      |(Int32.ofNat i.val - 67043336).toInt| ≤ 8 * 8380417 := by
    decide +kernel
  refine toInt_number_mul p r (fun i => ?_) fun i => ?_
  · rw [number_ofFn]
    exact (hbound i).1
  · rw [number_ofFn]
    exact (hbound i).2

end Poly

end LatticeSignature
