import LatticeSignature.PolyVec
import LatticeSignature.Proofs.Poly

/-!
# Vectors as vectors of ring elements

Operations on vectors act entry by entry, and the product with the public matrix is the product of
the ring.

* `PolyVec.element`, `PolyVec.Within`: the elements of the entries, and a common range.
* `PolyVec.element_dot`: the sum of products, up to the Montgomery factor.
* `Matrix.product`: the matrix applied to a vector of ring elements.
* **`Matrix.element_mul_transform`**, **`PolyVec.element_scale_transform`**: products through the
  transform are exact.
-/

namespace LatticeSignature

namespace PolyVec

variable {d : Domain} {n : ℕ}

/-- The number at a position of an entry. -/
abbrev number (v : PolyVec d n) (i : Fin n) (j : Fin 256) : Int32 := (v.get i).number j

/-- The ring elements that the entries of a vector stand for. -/
noncomputable def element (v : PolyVec d n) (i : Fin n) : Rq := (v.get i).element

/-- All representatives of all entries lie between two bounds. -/
def Within (v : PolyVec d n) (lo hi : ℤ) : Prop := ∀ i : Fin n, (v.get i).Within lo hi

theorem Within.mono {v : PolyVec d n} {lo hi lo' hi' : ℤ} (h : v.Within lo hi) (hlo : lo' ≤ lo)
    (hhi : hi ≤ hi') : v.Within lo' hi' :=
  fun i => (h i).mono hlo hhi

theorem Within.abs_number_le {v : PolyVec d n} {lo hi B : ℤ} (h : v.Within lo hi) (hlo : -B ≤ lo)
    (hhi : hi ≤ B) (i : Fin n) (j : Fin 256) : |((v.get i).number j).toInt| ≤ B :=
  abs_le.2 ⟨hlo.trans (h i j).1, (h i j).2.trans hhi⟩

theorem within_of_abs_lt {v : PolyVec d n} {B : ℤ} (h : ∀ i j, |(v.number i j).toInt| < B) :
    v.Within (-(B - 1)) (B - 1) :=
  fun i => Poly.within_of_abs_lt (h i)

/-- The vector with the same number everywhere. -/
def flat (c : Int32) : PolyVec d n := .replicate n (.flat c)

@[simp]
theorem get_flat (c : Int32) (i : Fin n) : (flat c : PolyVec d n).get i = .flat c :=
  Vector.getElem_replicate i.isLt

theorem within_flat {c : Int32} {lo hi : ℤ} (hlo : lo ≤ c.toInt) (hhi : c.toInt ≤ hi) :
    (flat c : PolyVec d n).Within lo hi := by
  intro i j
  rw [get_flat, Poly.number_flat]
  exact ⟨hlo, hhi⟩

/-! ## Entries -/

section Entries

variable (u v : PolyVec d n) (i : Fin n)

@[simp]
theorem get_ofFn (f : Fin n → Poly d) : Vector.get (.ofFn f) i = f i := Vector.getElem_ofFn ..

@[simp]
theorem get_add : (u.add v).get i = (u.get i).add (v.get i) := Vector.getElem_zipWith ..

@[simp]
theorem get_sub : (u.sub v).get i = (u.get i).sub (v.get i) := Vector.getElem_zipWith ..

@[simp]
theorem get_reduce : v.reduce.get i = (v.get i).reduce := Vector.getElem_map ..

@[simp]
theorem get_lift : v.lift.get i = (v.get i).lift := Vector.getElem_map ..

@[simp]
theorem get_shiftLeft : v.shiftLeft.get i = (v.get i).shiftLeft := Vector.getElem_map ..

@[simp]
theorem get_transform (v : PolyVec .plain n) : v.transform.get i = (v.get i).transform :=
  Vector.getElem_map ..

@[simp]
theorem get_inverseTransform (v : PolyVec .transformed n) :
    v.inverseTransform.get i = (v.get i).inverseTransform := Vector.getElem_map ..

@[simp]
theorem get_scale (p : Poly .transformed) (v : PolyVec .transformed n) :
    (v.scale p).get i = p.mulMontgomery (v.get i) := Vector.getElem_map ..

@[simp]
theorem get_power2Round_high (v : PolyVec .plain n) :
    v.power2Round.high.get i = (v.get i).power2Round.high := by
  simp only [power2Round, Vector.map_map]
  exact Vector.getElem_map ..

@[simp]
theorem get_power2Round_low (v : PolyVec .plain n) :
    v.power2Round.low.get i = (v.get i).power2Round.low := by
  simp only [power2Round, Vector.map_map]
  exact Vector.getElem_map ..

@[simp]
theorem get_decompose_high (v : PolyVec .plain n) :
    v.decompose.high.get i = (v.get i).decompose.high := by
  simp only [decompose, Vector.map_map]
  exact Vector.getElem_map ..

@[simp]
theorem get_decompose_low (v : PolyVec .plain n) :
    v.decompose.low.get i = (v.get i).decompose.low := by
  simp only [decompose, Vector.map_map]
  exact Vector.getElem_map ..

@[simp]
theorem get_makeHint (low high : PolyVec .plain n) :
    (low.makeHint high).get i = (low.get i).makeHint (high.get i) := Vector.getElem_zipWith ..

@[simp]
theorem get_useHint (v hint : PolyVec .plain n) :
    (v.useHint hint).get i = (v.get i).useHint (hint.get i) := Vector.getElem_zipWith ..

end Entries

theorem ext_entries {u v : PolyVec d n} (h : ∀ i : Fin n, u.get i = v.get i) : u = v :=
  Vector.ext fun i hi => h ⟨i, hi⟩

theorem foldl_and_eq_true {α : Type} (f : α → Bool) (l : List α) (ok : Bool) :
    l.foldl (fun ok a => ok && f a) ok = true ↔ ok = true ∧ ∀ a ∈ l, f a = true := by
  induction l generalizing ok with
  | nil => simp
  | cons a l ih => rw [List.foldl_cons, ih, Bool.and_eq_true, List.forall_mem_cons, and_assoc]

theorem normBelow_iff (v : PolyVec d n) (bound : Int32) :
    v.normBelow bound = true ↔ ∀ i : Fin n, (v.get i).normBelow bound = true := by
  unfold normBelow
  rw [← Vector.foldl_toList, foldl_and_eq_true]
  constructor
  · exact fun h i => h.2 _ (Vector.mem_toList_iff.2 (Vector.getElem_mem i.isLt))
  · refine fun h => ⟨rfl, fun p hp => ?_⟩
    obtain ⟨i, hi, rfl⟩ := List.getElem_of_mem hp
    exact h ⟨i, by simpa using hi⟩

/-! ## Sums of products -/

theorem element_foldl_add {B : ℤ} (l : List (Poly .transformed)) :
    ∀ (acc : Poly .transformed) (A : ℤ), (∀ p ∈ l, p.Within (-B) B) → acc.Within (-A) A → 0 ≤ B →
      A + l.length * B ≤ 2147483647 →
      (l.foldl Poly.add acc).element = acc.element + (l.map Poly.element).sum ∧
        (l.foldl Poly.add acc).Within (-(A + l.length * B)) (A + l.length * B) := by
  induction l with
  | nil =>
    intro acc A _ hacc _ _
    exact ⟨by simp, by simpa using hacc⟩
  | cons p l ih =>
    intro acc A hl hacc hB hA
    rw [List.forall_mem_cons] at hl
    rw [List.length_cons] at hA ⊢
    push_cast at hA ⊢
    have hpos : 0 ≤ (l.length : ℤ) * B := by positivity
    have hadd := Poly.element_add hacc hl.1 (by linarith) (by linarith)
    obtain ⟨h1, h2⟩ := ih (acc.add p) (A + B) hl.2 (hadd.2.mono (by linarith) le_rfl) hB (by linarith)
    rw [List.foldl_cons, List.map_cons, List.sum_cons]
    exact ⟨by rw [h1, hadd.1, add_assoc], h2.mono (by linarith) (by linarith)⟩

/-- **The sum of products**, up to the Montgomery factor, where each product is bounded by `M`. -/
theorem element_dot {u v : PolyVec .transformed 7} {A B M : ℤ} (hu : u.Within (-A) A)
    (hv : v.Within (-B) B) (h : A * B + 17996808470921216 < 4294967296 * (M + 1)) (hM : 0 ≤ M)
    (hM' : 7 * M ≤ 2147483647) :
    4294967296 * (dot u v).element = ∑ j : Fin 7, (u.get j).element * (v.get j).element ∧
      (dot u v).Within (-(7 * M)) (7 * M) := by
  let products : List (Poly .transformed) := List.ofFn fun j : Fin 7 => (u.get j).mulMontgomery (v.get j)
  have hdot : dot u v = products.foldl Poly.add 0 := by
    unfold dot
    rw [← Vector.foldl_toList]
    congr 1
    exact List.ext_getElem (by simp [products]) fun j _ _ => by
      rw [List.getElem_ofFn, Vector.getElem_toList, Vector.getElem_zipWith]
      rfl
  have hmem : ∀ p ∈ products, p.Within (-M) M := by
    intro p hmem
    obtain ⟨j, rfl⟩ := (List.mem_ofFn' _ _).1 hmem
    exact Poly.within_mulMontgomery (hu j) (hv j) h
  have hzero : (0 : Poly .transformed).Within (-0) 0 := fun j => by simp
  have hlen : products.length = 7 := List.length_ofFn
  obtain ⟨h1, h2⟩ :=
    element_foldl_add products 0 0 hmem hzero hM (by rw [hlen]; push_cast; linarith)
  rw [hlen] at h2
  push_cast at h2
  rw [hdot, h1]
  refine ⟨?_, h2.mono (by linarith) (by linarith)⟩
  rw [Poly.element_zero, zero_add, List.map_ofFn, List.sum_ofFn, Finset.mul_sum]
  exact Finset.sum_congr rfl fun j _ => Poly.element_mulMontgomery _ _

/-- **Multiplying each entry by one polynomial** through the transform is exact. -/
theorem element_scale_transform {c : Poly .plain} {v : PolyVec .plain n} (hc : c.Within (-1) 1)
    (hv : v.Within (-8380416) 8380416) (i : Fin n) :
    ((v.transform.scale c.transform).inverseTransform.get i).element = c.element * (v.get i).element ∧
      ((v.transform.scale c.transform).inverseTransform.get i).Within (-4211197) 4211197 := by
  have h1 := Poly.element_transform hc (by norm_num)
  have h2 := Poly.element_transform (hv i) (by norm_num)
  have h3 := Poly.within_mulMontgomery (M := 8380416) h1.2 h2.2 (by norm_num)
  have h4 := Poly.element_inverseTransform h3
  rw [get_inverseTransform, get_scale, get_transform]
  exact ⟨by rw [h4.1, Poly.element_mulMontgomery, h1.1, h2.1], h4.2⟩

/-! ## Ranges -/

section Ranges

variable {u v : PolyVec d n} {a b a' b' : ℤ}

theorem within_add (hu : u.Within a b) (hv : v.Within a' b') (hlo : -2147483648 ≤ a + a')
    (hhi : b + b' ≤ 2147483647) : (u.add v).Within (a + a') (b + b') := by
  intro i
  rw [get_add]
  exact (Poly.element_add (hu i) (hv i) hlo hhi).2

theorem within_sub (hu : u.Within a b) (hv : v.Within a' b') (hlo : -2147483648 ≤ a - b')
    (hhi : b - a' ≤ 2147483647) : (u.sub v).Within (a - b') (b - a') := by
  intro i
  rw [get_sub]
  exact (Poly.element_sub (hu i) (hv i) hlo hhi).2

theorem within_reduce (hv : v.Within a b) (hb : b ≤ 2143289343) :
    v.reduce.Within (-6283009) 6283008 := by
  intro i
  rw [get_reduce]
  exact (Poly.element_reduce (hv i) hb).2

theorem within_lift (hv : v.Within a b) (ha : -8380417 ≤ a) (hb : b ≤ 8380416) :
    v.lift.Within 0 8380416 := by
  intro i
  rw [get_lift]
  exact (Poly.element_lift (hv i) ha hb).2

theorem within_shiftLeft {v : PolyVec .plain n} (hv : v.Within 0 1023) :
    v.shiftLeft.Within 0 8380416 := by
  intro i
  rw [get_shiftLeft]
  exact (Poly.element_shiftLeft (hv i)).2

theorem within_transform {v : PolyVec .plain n} {B : ℤ} (hv : v.Within (-B) B) (hB : B ≤ 2080440319) :
    v.transform.Within (-(B + 67043328)) (B + 67043328) := by
  intro i
  rw [get_transform]
  exact (Poly.element_transform (hv i) hB).2

theorem within_inverseTransform {v : PolyVec .transformed n} (hv : v.Within (-8380416) 8380416) :
    v.inverseTransform.Within (-4211197) 4211197 := by
  intro i
  rw [get_inverseTransform]
  exact (Poly.element_inverseTransform (hv i)).2

theorem within_scale {p : Poly .transformed} {v : PolyVec .transformed n} {A B : ℤ}
    (hp : p.Within (-A) A) (hv : v.Within (-B) B) (h : A * B < 17996808470921216) :
    (v.scale p).Within (-8380416) 8380416 := by
  intro i
  rw [get_scale]
  exact Poly.within_mulMontgomery hp (hv i) (by linarith)

end Ranges

end PolyVec

namespace Matrix

/-- All representatives of all entries lie between two bounds. -/
def Within (A : Matrix) (lo hi : ℤ) : Prop := ∀ i : Fin 8, (A.get i).Within lo hi

/-- The matrix applied to a vector of ring elements. Its entries are sampled as values, so that they
are the elements with those values. -/
noncomputable def product (A : Matrix) (x : Fin 7 → Rq) (i : Fin 8) : Rq :=
  ∑ j : Fin 7, ((A.get i).get j).element * x j

/-- The matrix with the same number everywhere. -/
def flat (c : Int32) : Matrix := .replicate 8 (.flat c)

theorem get_flat (c : Int32) (i : Fin 8) : (flat c).get i = .flat c := Vector.getElem_replicate i.isLt

theorem product_flat (c : Int32) (x : Fin 7 → Rq) (i : Fin 8) :
    (flat c).product x i = (c.toInt : Rq) * ∑ j, x j := by
  rw [product, get_flat, Finset.mul_sum]
  exact Finset.sum_congr rfl fun j _ => by rw [PolyVec.get_flat, Poly.element_flat]

@[simp]
theorem get_mul (A : Matrix) (v : PolyVec .transformed 7) (i : Fin 8) :
    (A.mul v).get i = PolyVec.dot (A.get i) v := Vector.getElem_map ..

theorem element_mul {A : Matrix} {v : PolyVec .plain 7} {B : ℤ} (hA : A.Within 0 8380416)
    (hv : v.Within (-B) B) (hB : B ≤ 2080440319) (i : Fin 8) :
    4294967296 * ((A.mul v.transform).get i).element = A.product v.element i ∧
      ((A.mul v.transform).get i).Within (-58662912) 58662912 := by
  have ht : ∀ j : Fin 7, _ := fun j => Poly.element_transform (hv j) hB
  have htw := PolyVec.within_transform hv hB
  have hdot := PolyVec.element_dot (M := 8380416) ((hA i).mono (by norm_num) le_rfl) htw (by linarith)
    (by norm_num) (by norm_num)
  rw [get_mul]
  refine ⟨?_, hdot.2.mono (by norm_num) (by norm_num)⟩
  rw [hdot.1]
  exact Finset.sum_congr rfl fun j _ => by rw [PolyVec.get_transform, (ht j).1]; rfl

/-- **The matrix product through the transform is exact.** -/
theorem element_mul_transform {A : Matrix} {v : PolyVec .plain 7} {B : ℤ} (hA : A.Within 0 8380416)
    (hv : v.Within (-B) B) (hB : B ≤ 2080440319) (i : Fin 8) :
    ((A.mul v.transform).reduce.inverseTransform.get i).element = A.product v.element i ∧
      ((A.mul v.transform).reduce.inverseTransform.get i).Within (-4211197) 4211197 := by
  have h1 := element_mul hA hv hB i
  have h2 := Poly.element_reduce h1.2 (by norm_num)
  have h3 := Poly.element_inverseTransform (h2.2.mono (by norm_num) (by norm_num))
  rw [PolyVec.get_inverseTransform, PolyVec.get_reduce]
  exact ⟨by rw [h3.1, h2.1, h1.1], h3.2⟩

end Matrix

end LatticeSignature
