import LatticeSignature.Proofs.Checked.Poly

/-!
# Ranges of representatives

What a reduction, a division by `2 ^ 32` and a sum of products promise about each number of the
polynomials and vectors they return: its class, its range, and that every result on the way fits.

* `Residue.Reduced`: what a reduction makes of a number.
* **`reduce_reduced`**: every number of a polynomial or vector is reduced.
* `Residue.IsQuotient`: a quotient by `2 ^ 32`, in its class and range.
* **`montgomery_isQuotient`**: every number and every product of numbers up to `2 ^ 31 · q`.
* `PolyVec.IsScaledDot`: a sum of products over `2 ^ 32`, in its class and range.
* **`dot_isScaledDot`**: the sum of products of any two vectors of seven, and the rows of a product
  with the matrix.
-/

namespace LatticeSignature

open Params

/-! ## Reduction -/

/-- The number `r` is what a reduction makes of `a`. Of all words one alone leaves the range that is
symmetric around zero. -/
structure Residue.Reduced (a r : Int32) : Prop where
  modEq : r.toInt ≡ a.toInt [ZMOD q.toInt]
  le_toInt : -6283009 ≤ r.toInt
  toInt_le : r.toInt ≤ 6283008
  le_toInt_iff : -6283008 ≤ r.toInt ↔ a.toInt ≠ -2143289344

/-- Rounding to multiples of `2 ^ 23` in place of `q` errs most at the ends, halfway between the last
two multiples. The number there is rounded up, so that only the lower end reaches `-6283009`. -/
theorem Residue.reduced_reduce {a : Int32} (h : a.toInt ≤ 2143289343) : Reduced a (reduce a) := by
  obtain ⟨hclass, hle, hge⟩ := cls_reduce h
  refine ⟨(ZMod.intCast_eq_intCast_iff _ _ 8380417).1 hclass, hle, hge, ?_⟩
  have hlo := a.le_toInt
  norm_num at hlo
  rw [toInt_reduce h]
  omega

/-- **Reduction** keeps the class of each number and brings it near zero; all but one of the words
that it can be given end up in `[-6283008, 6283008]`. -/
theorem reduce_reduced {d : Domain} :
    (∀ p : Poly d, (∀ j, (p.number j).toInt ≤ 2 ^ 31 - 2 ^ 22 - 1) →
      p.checkedReduce = .ok p.reduce ∧ ∀ j, Residue.Reduced (p.number j) (p.reduce.number j)) ∧
    ∀ (n : ℕ) (v : PolyVec d n), (∀ i j, (v.number i j).toInt ≤ 2 ^ 31 - 2 ^ 22 - 1) →
      v.checkedReduce = .ok v.reduce ∧ ∀ i j, Residue.Reduced (v.number i j) (v.reduce.number i j) := by
  have hpoly : ∀ p : Poly d, (∀ j, (p.number j).toInt ≤ 2 ^ 31 - 2 ^ 22 - 1) →
      p.checkedReduce = .ok p.reduce ∧ ∀ j, Residue.Reduced (p.number j) (p.reduce.number j) := by
    intro p hp
    refine ⟨Poly.checkedMap_eq fun j => Residue.checkedReduce_eq (hp j), fun j => ?_⟩
    rw [Poly.reduce, Poly.number_map]
    exact Residue.reduced_reduce (hp j)
  refine ⟨hpoly, fun n v hv => ⟨Checked.each_eq fun i => (hpoly _ (hv i)).1, fun i j => ?_⟩⟩
  change Residue.Reduced _ ((v.reduce.get i).number j)
  rw [PolyVec.get_reduce]
  exact (hpoly _ (hv i)).2 j

/-- A polynomial with the numbers at which the quotient is farthest from exact. -/
theorem reduce_reduced_extreme :
    let p : Poly .plain := .ofFn fun j => if j.val % 2 = 0 then -2143289344 else 2143289343
    p.checkedReduce = .ok p.reduce ∧
      (p.reduce.number 0).toInt = -6283009 ∧ (p.reduce.number 1).toInt = 6283008 := by
  intro p
  have hp : ∀ j, (p.number j).toInt ≤ 2 ^ 31 - 2 ^ 22 - 1 := by
    intro j
    rw [Poly.number_ofFn]
    split <;> decide
  obtain ⟨hc, hr⟩ := reduce_reduced.1 p hp
  have heven : (p.number 0).toInt = -2143289344 := by
    rw [Poly.number_ofFn]
    rfl
  have hlow := (hr 0).le_toInt_iff.not_left.2 heven
  refine ⟨hc, le_antisymm (Int.le_of_lt_add_one (not_le.1 hlow)) (hr 0).le_toInt, ?_⟩
  rw [Poly.reduce, Poly.number_map, Poly.number_ofFn]
  decide

/-- The range is not symmetric. -/
theorem reduce_not_symmetric :
    ¬∀ p : Poly .plain, (∀ j, (p.number j).toInt ≤ 2 ^ 31 - 2 ^ 22 - 1) →
      ∀ j, -6283008 ≤ (p.reduce.number j).toInt ∧ (p.reduce.number j).toInt ≤ 6283008 := by
  intro h
  have hp : ∀ j, ((.ofFn fun _ => -2143289344 : Poly .plain).number j).toInt ≤ 2 ^ 31 - 2 ^ 22 - 1 := by
    intro j
    rw [Poly.number_ofFn]
    decide
  have hlow := (h _ hp 0).1
  rw [Poly.reduce, Poly.number_map, Poly.number_ofFn] at hlow
  exact absurd hlow (by decide)

/-! ## Division by `2 ^ 32` -/

/-- The number `r` is the quotient of `a` by `2 ^ 32`, modulo `q`. Of all numbers in range one alone has
a quotient as large as `q`. -/
structure Residue.IsQuotient (a r : ℤ) : Prop where
  modEq : 2 ^ 32 * r ≡ a [ZMOD q.toInt]
  neg_lt : -q.toInt < r
  le : r ≤ q.toInt
  lt_iff : r < q.toInt ↔ a ≠ 2 ^ 31 * q.toInt

namespace Residue

theorem two_pow_mul_toInt_q : 2 ^ 31 * q.toInt = 17996808470921216 := rfl

theorem IsQuotient.abs_lt_q {a r : ℤ} (h : IsQuotient a r) (ha : a ≠ 2 ^ 31 * q.toInt) : |r| < q.toInt :=
  abs_lt.2 ⟨h.neg_lt, h.lt_iff.2 ha⟩

theorem IsQuotient.eq_q {r : ℤ} (h : IsQuotient (2 ^ 31 * q.toInt) r) : r = q.toInt :=
  le_antisymm h.le (not_lt.1 (h.lt_iff.not_left.2 rfl))

/-- An exact quotient is in range. The factor `t` of what is taken away reaches `2 ^ 31` on the negative
side only, so that only the upper end of the range of `a` leads to the end of that of `r`. -/
theorem isQuotient_of_mul_eq {a r t : ℤ} (hr : r * 4294967296 = a - t * 8380417) (ht : -2147483648 ≤ t)
    (ht' : t < 2147483648) (ha : -17996808470921216 ≤ a) (ha' : a ≤ 17996808470921216) :
    IsQuotient a r := by
  have hq := Words.toInt_q
  constructor
  · rw [hq]
    exact Int.modEq_iff_dvd.2 ⟨t, by linarith⟩
  · omega
  · omega
  · rw [two_pow_mul_toInt_q, hq]
    constructor
    · -- `q` is odd, so that `2 ^ 32` divides the positive number `2 ^ 31 - t`
      rintro hlt rfl
      omega
    · intro hne
      omega

theorem isQuotient_montgomery {a : Int64} (h : -(2 ^ 31 * q.toInt) ≤ a.toInt)
    (h' : a.toInt ≤ 2 ^ 31 * q.toInt) :
    checkedMontgomery a = .ok (montgomery a) ∧ IsQuotient a.toInt (montgomery a).toInt := by
  rw [two_pow_mul_toInt_q] at h h'
  obtain ⟨t, ht, ht', hr⟩ := exists_montgomery_mul a (by linarith) (by linarith)
  exact ⟨checkedMontgomery_eq (by linarith) (by linarith), isQuotient_of_mul_eq hr ht ht' h h'⟩

theorem isQuotient_mulMontgomery {a b : Int32} (h : |a.toInt * b.toInt| ≤ 2 ^ 31 * q.toInt) :
    IsQuotient (a.toInt * b.toInt) (mulMontgomery a b).toInt := by
  obtain ⟨hlo, hhi⟩ := abs_le.1 (h.trans_eq two_pow_mul_toInt_q)
  obtain ⟨t, ht, ht', hr⟩ := exists_mulMontgomery_mul a b
  exact isQuotient_of_mul_eq hr ht ht' hlo hhi

end Residue

/-- **Division by `2 ^ 32`** is exact modulo `q` and comes back below `q` in absolute value, except at
`2 ^ 31 · q`, which leads to `q`. So do the products of numbers that stay in that range. -/
theorem montgomery_isQuotient (a : Int64) (p r : Poly .transformed) :
    (-(2 ^ 31 * q.toInt) ≤ a.toInt → a.toInt ≤ 2 ^ 31 * q.toInt →
      Residue.checkedMontgomery a = .ok (Residue.montgomery a) ∧
        Residue.IsQuotient a.toInt (Residue.montgomery a).toInt) ∧
    ((∀ k, |(p.number k).toInt * (r.number k).toInt| ≤ 2 ^ 31 * q.toInt) →
      p.checkedMulMontgomery r = .ok (p.mulMontgomery r) ∧
        ∀ k, Residue.IsQuotient ((p.number k).toInt * (r.number k).toInt)
          ((p.mulMontgomery r).number k).toInt) := by
  refine ⟨Residue.isQuotient_montgomery, fun h => ⟨Poly.checkedMulMontgomery_eq p r, fun k => ?_⟩⟩
  rw [Poly.mulMontgomery, Poly.number_zipWith]
  exact Residue.isQuotient_mulMontgomery (h k)

/-- Both ends of the range, as words and as products. -/
theorem montgomery_isQuotient_ends :
    let p : Poly .transformed := .ofFn fun _ => -2147483648
    let r : Poly .transformed := .ofFn fun k => if k.val % 2 = 0 then -8380417 else 8380417
    (Residue.checkedMontgomery 17996808470921216 = .ok (Residue.montgomery 17996808470921216) ∧
        (Residue.montgomery 17996808470921216).toInt = q.toInt ∧
        |(Residue.montgomery (-17996808470921216)).toInt| < q.toInt) ∧
      p.checkedMulMontgomery r = .ok (p.mulMontgomery r) ∧
        ((p.mulMontgomery r).number 0).toInt = q.toInt ∧
        |((p.mulMontgomery r).number 1).toInt| < q.toInt := by
  intro p r
  have hproduct : ∀ k, (p.number k).toInt * (r.number k).toInt =
      if k.val % 2 = 0 then 17996808470921216 else -17996808470921216 := by
    intro k
    rw [Poly.number_ofFn, Poly.number_ofFn]
    split <;> rfl
  obtain ⟨hword, hpoly⟩ := montgomery_isQuotient 17996808470921216 p r
  obtain ⟨hupper, hupper'⟩ := hword (by decide) (by decide)
  obtain ⟨-, hlower⟩ := (montgomery_isQuotient (-17996808470921216) p r).1 (by decide) (by decide)
  obtain ⟨hchecked, hquotient⟩ := hpoly fun k => by
    rw [hproduct]
    split <;> decide
  have heven := hquotient 0
  have hodd := hquotient 1
  rw [hproduct] at heven hodd
  exact ⟨⟨hupper, hupper'.eq_q, hlower.abs_lt_q (by decide)⟩,
    hchecked, heven.eq_q, hodd.abs_lt_q (by decide)⟩

/-- The quotient of the upper end is not below `q`. -/
theorem montgomery_not_below_q :
    ¬∀ a : Int64, -(2 ^ 31 * q.toInt) ≤ a.toInt → a.toInt ≤ 2 ^ 31 * q.toInt →
      -q.toInt < (Residue.montgomery a).toInt ∧ (Residue.montgomery a).toInt < q.toInt := by
  intro h
  have hlt := (h 17996808470921216 (by decide) (by decide)).2
  exact absurd hlt (by decide)

/-! ## Sums of products -/

/-- The polynomial `w` holds, over `2 ^ 32`, the sums of the products of the numbers of `u` and `v`. -/
structure PolyVec.IsScaledDot (u v : PolyVec .transformed 7) (w : Poly .transformed) : Prop where
  abs_lt : ∀ k, |(w.number k).toInt| < 2 * 7 * q.toInt
  modEq : ∀ k, 2 ^ 32 * (w.number k).toInt ≡
    ∑ i, (u.number i k).toInt * (v.number i k).toInt [ZMOD q.toInt]

namespace PolyVec

section Dot

variable {u v : PolyVec .transformed 7}

theorem residues_dot
    (h : 4294967296 * (dot u v).element = ∑ i, (u.get i).element * (v.get i).element) (k : Fin 256) :
    4294967296 * (dot u v).residues k = ∑ i, (u.get i).residues k * (v.get i).residues k := by
  have hk := congrArg (fun a => Rq.value a k) h
  simp only [Rq.value_sum, Rq.value_mul, Poly.value_element] at hk
  rw [← hk, Rq.value_ofNat]

/-- Each of the seven products, of numbers as large as `484 q²`, comes back below `2 q`. -/
theorem dot_of_abs_lt (hu : ∀ i k, |(u.number i k).toInt| < 22 * q.toInt)
    (hv : ∀ i k, |(v.number i k).toInt| < 22 * q.toInt) :
    checkedDot u v = .ok (dot u v) ∧
      4294967296 * (dot u v).element = ∑ i, (u.get i).element * (v.get i).element ∧
      (dot u v).Within (-117325831) 117325831 := by
  have hu' : u.Within (-184369173) 184369173 := within_of_abs_lt hu
  have hv' : v.Within (-184369173) 184369173 := within_of_abs_lt hv
  have hproduct : (184369173 : ℤ) * 184369173 + 17996808470921216 < 4294967296 * (16760833 + 1) := by
    norm_num
  exact ⟨checkedDot_eq hu' hv' hproduct (by norm_num) (by norm_num),
    element_dot hu' hv' hproduct (by norm_num) (by norm_num)⟩

theorem isScaledDot_dot (hu : ∀ i k, |(u.number i k).toInt| < 22 * q.toInt)
    (hv : ∀ i k, |(v.number i k).toInt| < 22 * q.toInt) : IsScaledDot u v (dot u v) := by
  obtain ⟨-, helement, hwithin⟩ := dot_of_abs_lt hu hv
  constructor
  · intro k
    have h := abs_le.2 (hwithin k)
    rw [Words.toInt_q]
    linarith
  · intro k
    refine (ZMod.intCast_eq_intCast_iff _ _ 8380417).1 ?_
    norm_num
    exact residues_dot helement k

end Dot

end PolyVec

/-- **The sum of products** of two vectors with numbers below `22 q`, of which the product with a
matrix consists row by row. -/
theorem dot_isScaledDot {v : PolyVec .transformed 7} (hv : ∀ j k, |(v.number j k).toInt| < 22 * q.toInt) :
    (∀ u : PolyVec .transformed 7, (∀ j k, |(u.number j k).toInt| < 22 * q.toInt) →
      u.checkedDot v = .ok (u.dot v) ∧ PolyVec.IsScaledDot u v (u.dot v)) ∧
    ∀ A : Matrix, (∀ i j k, |((A.get i).number j k).toInt| < 22 * q.toInt) →
      A.checkedMul v = .ok (A.mul v) ∧
        ∀ i, PolyVec.IsScaledDot (A.get i) v ((A.mul v).get i) ∧
          2 ^ 32 * ((A.mul v).get i).element = A.product v.element i := by
  refine ⟨fun u hu => ⟨(PolyVec.dot_of_abs_lt hu hv).1, PolyVec.isScaledDot_dot hu hv⟩, fun A hA => ?_⟩
  refine ⟨Checked.each_eq fun i => (PolyVec.dot_of_abs_lt (hA i) hv).1, fun i => ?_⟩
  rw [Matrix.get_mul]
  refine ⟨PolyVec.isScaledDot_dot (hA i) hv, ?_⟩
  norm_num
  exact (PolyVec.dot_of_abs_lt (hA i) hv).2.1

theorem dot_isScaledDot_extreme :
    let p : Poly .transformed := .ofFn fun k => if k.val % 2 = 0 then 184369173 else -184369173
    let v : PolyVec .transformed 7 := .ofFn fun _ => p
    let A : Matrix := .ofFn fun _ => v
    v.checkedDot v = .ok (v.dot v) ∧ PolyVec.IsScaledDot v v (v.dot v) ∧
      A.checkedMul v = .ok (A.mul v) ∧ ∀ i, PolyVec.IsScaledDot v v ((A.mul v).get i) := by
  intro p v A
  have hv : ∀ j k, |(v.number j k).toInt| < 22 * q.toInt := by
    intro j k
    change |((v.get j).number k).toInt| < _
    rw [PolyVec.get_ofFn, Poly.number_ofFn]
    split <;> decide
  have hA : ∀ i, A.get i = v := fun i => Vector.getElem_ofFn ..
  obtain ⟨hdot, hmul⟩ := dot_isScaledDot hv
  obtain ⟨hc, hs⟩ := hmul A fun i => by rwa [hA]
  exact ⟨(hdot v hv).1, (hdot v hv).2, hc, fun i => by simpa only [hA] using (hs i).1⟩

end LatticeSignature
