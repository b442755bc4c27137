import LatticeSignature.Poly
import LatticeSignature.Proofs.Transform
import Mathlib.Data.ZMod.ValMinAbs

/-!
# Polynomials as ring elements

A polynomial of 32-bit representatives stands for an element of the ring, by its coefficients or by
its values according to its domain. Each operation on polynomials is an operation of the ring, up to
powers of the Montgomery factor, provided that the representatives stay in range.

* `Poly.element`: the element that a polynomial stands for.
* `Poly.Within`: the range of its representatives.
* `Poly.element_add`, …, `Poly.element_mulMontgomery`: the element of each result, and its range.
* **`Poly.residues_transform`**, **`Poly.element_transform`**, **`Poly.element_inverseTransform`**.
* `Rq.canonical`, `Rq.centred`: the representatives in `[0, q)` and those around zero.
* `Poly.normBelow_iff`, `Poly.weight_eq_card`: the norm test and the number of nonzero coefficients.
-/

namespace LatticeSignature

namespace Poly

open Residue

variable {d : Domain}

/-- The number at a position. -/
def number (p : Poly d) (j : Fin 256) : Int32 := p.coeffs.get j

@[simp]
theorem number_mk (p : Poly d) {j : ℕ} (hj : j < 256) : p.number ⟨j, hj⟩ = p[j] := rfl

@[simp]
theorem number_ofFn (f : Fin 256 → Int32) (j : Fin 256) : (ofFn f : Poly d).number j = f j :=
  getElem_ofFn f j j.isLt

@[simp]
theorem number_map {e : Domain} (f : Int32 → Int32) (p : Poly d) (j : Fin 256) :
    (p.map f : Poly e).number j = f (p.number j) := getElem_map f p j j.isLt

@[simp]
theorem number_zipWith (f : Int32 → Int32 → Int32) (p r : Poly d) (j : Fin 256) :
    (p.zipWith f r).number j = f (p.number j) (r.number j) := getElem_zipWith f p r j j.isLt

theorem ext_number {p r : Poly d} (h : ∀ j, p.number j = r.number j) : p = r :=
  ext_getElem fun j hj => h ⟨j, hj⟩

/-- The polynomial with the same number everywhere. -/
def flat (c : Int32) : Poly d := ofFn fun _ => c

@[simp]
theorem number_flat (c : Int32) (j : Fin 256) : (flat c : Poly d).number j = c := number_ofFn _ j

/-- The classes of the numbers of a polynomial. -/
def residues (p : Poly d) (j : Fin 256) : Zq := cls (p.number j)

/-- The ring element that a polynomial stands for. -/
noncomputable def element : {d : Domain} → Poly d → Rq
  | .plain, p => ⟨p.residues⟩
  | .transformed, p => Rq.ofValues p.residues

/-- All representatives lie between two bounds. -/
def Within (p : Poly d) (lo hi : ℤ) : Prop :=
  ∀ j, lo ≤ (p.number j).toInt ∧ (p.number j).toInt ≤ hi

theorem Within.mono {p : Poly d} {lo hi lo' hi' : ℤ} (h : p.Within lo hi) (hlo : lo' ≤ lo)
    (hhi : hi ≤ hi') : p.Within lo' hi' :=
  fun j => ⟨hlo.trans (h j).1, (h j).2.trans hhi⟩

theorem within_of_abs_lt {p : Poly d} {B : ℤ} (h : ∀ j, |(p.number j).toInt| < B) :
    p.Within (-(B - 1)) (B - 1) :=
  fun j => abs_le.1 (Int.le_sub_one_of_lt (h j))

@[simp]
theorem coeff_element (p : Poly .plain) (j : Fin 256) : p.element.coeff j = cls (p.number j) := rfl

@[simp]
theorem value_element (p : Poly .transformed) : Rq.value p.element = p.residues :=
  Rq.value_ofValues _

theorem element_flat (c : Int32) : (flat c : Poly .transformed).element = (c.toInt : Rq) := by
  refine Rq.value_injective (funext fun k => ?_)
  rw [value_element, residues, number_flat, Rq.value_intCast, cls]

/-! ## Operations that keep the domain -/

theorem element_congr {p r : Poly d} (h : ∀ i, r.residues i = p.residues i) :
    r.element = p.element := by
  have : r.residues = p.residues := funext h
  cases d <;> simp only [element, this]

theorem element_of_add {p r s : Poly d} (h : ∀ i, s.residues i = p.residues i + r.residues i) :
    s.element = p.element + r.element := by
  cases d with
  | plain => exact Rq.ext (funext h)
  | transformed =>
    refine Rq.value_injective (funext fun k => ?_)
    rw [Rq.value_add, value_element, value_element, value_element, h]

theorem element_of_sub {p r s : Poly d} (h : ∀ i, s.residues i = p.residues i - r.residues i) :
    s.element = p.element - r.element := by
  rw [eq_sub_iff_add_eq]
  exact (element_of_add fun i => by rw [h, sub_add_cancel]).symm

@[simp]
theorem number_zero (j : Fin 256) : (0 : Poly d).number j = 0 := number_ofFn _ j

@[simp]
theorem element_zero : (0 : Poly d).element = 0 := by
  have h := element_of_add (p := (0 : Poly d)) (r := 0) (s := 0) fun i => by
    simp [residues, cls]
  exact left_eq_add.1 h

section Range

variable {p r : Poly d} {a b a' b' : ℤ}

theorem element_add (hp : p.Within a b) (hr : r.Within a' b') (hlo : -2147483648 ≤ a + a')
    (hhi : b + b' ≤ 2147483647) :
    (p.add r).element = p.element + r.element ∧ (p.add r).Within (a + a') (b + b') := by
  have h : ∀ j, ((p.add r).number j).toInt = (p.number j).toInt + (r.number j).toInt := by
    intro j
    have h1 := hp j
    have h2 := hr j
    rw [add, number_zipWith]
    exact Words.toInt_add (by linarith) (by linarith)
  refine ⟨element_of_add fun j => ?_, fun j => ?_⟩
  · rw [residues, cls, h, Int.cast_add]
    rfl
  · have h1 := hp j
    have h2 := hr j
    rw [h]
    exact ⟨by linarith, by linarith⟩

theorem element_sub (hp : p.Within a b) (hr : r.Within a' b') (hlo : -2147483648 ≤ a - b')
    (hhi : b - a' ≤ 2147483647) :
    (p.sub r).element = p.element - r.element ∧ (p.sub r).Within (a - b') (b - a') := by
  have h : ∀ j, ((p.sub r).number j).toInt = (p.number j).toInt - (r.number j).toInt := by
    intro j
    have h1 := hp j
    have h2 := hr j
    rw [sub, number_zipWith]
    exact Words.toInt_sub (by linarith) (by linarith)
  refine ⟨element_of_sub fun j => ?_, fun j => ?_⟩
  · rw [residues, cls, h, Int.cast_sub]
    rfl
  · have h1 := hp j
    have h2 := hr j
    rw [h]
    exact ⟨by linarith, by linarith⟩

theorem element_reduce (hp : p.Within a b) (hb : b ≤ 2143289343) :
    p.reduce.element = p.element ∧ p.reduce.Within (-6283009) 6283008 := by
  refine ⟨element_congr fun j => ?_, fun j => ?_⟩
  · rw [residues, reduce, number_map]
    exact (cls_reduce ((hp j).2.trans hb)).1
  · rw [reduce, number_map]
    exact (cls_reduce ((hp j).2.trans hb)).2

theorem element_lift (hp : p.Within a b) (ha : -8380417 ≤ a) (hb : b ≤ 8380416) :
    p.lift.element = p.element ∧ p.lift.Within 0 8380416 := by
  have h : ∀ j, cls (Residue.lift (p.number j)) = cls (p.number j) ∧
      0 ≤ (Residue.lift (p.number j)).toInt ∧ (Residue.lift (p.number j)).toInt ≤ 8380416 := by
    intro j
    have h1 := hp j
    exact cls_lift (by linarith) (by linarith)
  refine ⟨element_congr fun j => ?_, fun j => ?_⟩
  · rw [residues, lift, number_map]
    exact (h j).1
  · rw [lift, number_map]
    exact (h j).2

end Range

theorem element_shiftLeft {p : Poly .plain} (hp : p.Within 0 1023) :
    p.shiftLeft.element = 8192 * p.element ∧ p.shiftLeft.Within 0 8380416 := by
  have h : ∀ j, (p.shiftLeft.number j).toInt = 8192 * (p.number j).toInt := by
    intro j
    have h1 := hp j
    rw [shiftLeft, number_map, Words.toInt_shiftLeft_thirteen (by linarith) (by linarith), mul_comm]
  refine ⟨Rq.ext (funext fun j => ?_), fun j => ?_⟩
  · rw [Rq.coeff_ofNat_mul, coeff_element, coeff_element, cls, h, Int.cast_mul]
    rfl
  · have h1 := hp j
    rw [h]
    exact ⟨by linarith, by linarith⟩

/-! ## Products and transforms -/

theorem element_mulMontgomery (p r : Poly .transformed) :
    4294967296 * (p.mulMontgomery r).element = p.element * r.element := by
  refine Rq.value_injective (funext fun k => ?_)
  rw [Rq.value_mul, Rq.value_mul, Rq.value_ofNat, value_element, value_element, value_element, residues,
    mulMontgomery, number_zipWith]
  exact cls_mulMontgomery _ _

theorem within_mulMontgomery {p r : Poly .transformed} {A B M : ℤ} (hp : p.Within (-A) A)
    (hr : r.Within (-B) B) (h : A * B + 17996808470921216 < 4294967296 * (M + 1)) :
    (p.mulMontgomery r).Within (-M) M := by
  intro j
  rw [mulMontgomery, number_zipWith]
  exact abs_le.1 (abs_mulMontgomery_le_of_abs_le (abs_le.2 (hp j)) (abs_le.2 (hr j)) h)

theorem classes_coeffs (p : Poly .plain) (i : Fin 256) :
    Transform.classes p.coeffs i = p.element.coeff i := Transform.classes_of_lt _ i.isLt

/-- **The numbers of the transform are the values**, and they grow by six times `q` at most. -/
theorem residues_transform {p : Poly .plain} {B : ℤ} (hp : p.Within (-B) B) (hB : B ≤ 2097201151) :
    p.transform.residues = Rq.value p.element ∧
      p.transform.Within (-(B + 50282496)) (B + 50282496) := by
  have h := Transform.forwardFrom_spec (Transform.classes p.coeffs) 8 le_rfl p.coeffs
    (fun i hi => abs_le.2 (hp ⟨i, hi⟩)) (by push_cast; linarith)
    (fun i hi => (Butterfly.remainder_eight _ hi).symm)
  refine ⟨funext fun k => ?_, fun j => ?_⟩
  · calc p.transform.residues k
        = Transform.classes (Transform.forwardFrom 8 le_rfl p.coeffs) k :=
          (Transform.classes_of_lt _ k.isLt).symm
      _ = ∑ i : Fin 256, Transform.classes p.coeffs i * Rq.root k ^ i.val := by
          rw [(h k k.isLt).1, Butterfly.remainder_zero]
      _ = Rq.value p.element k :=
          Finset.sum_congr rfl fun i _ => by rw [classes_coeffs]
  · have h1 := abs_le.1 (h j j.isLt).2
    push_cast at h1
    exact h1

/-- **The transform takes an element to its values.** -/
theorem element_transform {p : Poly .plain} {B : ℤ} (hp : p.Within (-B) B) (hB : B ≤ 2080440319) :
    p.transform.element = p.element ∧
      p.transform.Within (-(B + 67043328)) (B + 67043328) := by
  obtain ⟨hvalues, hwithin⟩ := residues_transform hp (by linarith)
  refine ⟨Rq.value_injective ?_, hwithin.mono (by linarith) (by linarith)⟩
  rw [value_element, hvalues]

/-- **The inverse transform takes values to their element**, times the Montgomery factor. -/
theorem element_inverseTransform {p : Poly .transformed} (hp : p.Within (-8380416) 8380416) :
    p.inverseTransform.element = 4294967296 * p.element ∧
      p.inverseTransform.Within (-4211197) 4211197 := by
  let g := Transform.inverseUpTo 8 le_rfl p.coeffs
  have h := Transform.inverseUpTo_spec 8 le_rfl p.coeffs fun i hi => abs_le.2 (hp ⟨i, hi⟩)
  have hscale : |Transform.inverseScale.toInt| ≤ 41978 := by decide
  have hget : ∀ j : Fin 256,
      p.inverseTransform.number j = Residue.mulMontgomery Transform.inverseScale (g.get j) :=
    fun j => Vector.getElem_map _ j.isLt
  have hcls : ∀ i : Fin 256, 4294967296 * p.inverseTransform.element.coeff i =
      41978 * Butterfly.inverses (Transform.classes p.coeffs) 8 i := by
    intro i
    rw [coeff_element, hget, ← (h i i.isLt).1, Transform.classes_of_lt _ i.isLt]
    exact cls_mulMontgomery _ _
  refine ⟨Rq.value_injective (funext fun k => two_pow_mul_inj.1 ?_), fun j => ?_⟩
  · have hfactor : (41978 * 256 : Zq) = 4294967296 * 4294967296 := by decide
    calc 4294967296 * Rq.value p.inverseTransform.element k
        = 41978 * ∑ i : Fin 256,
            Butterfly.inverses (Transform.classes p.coeffs) 8 i * Rq.root k ^ i.val := by
          rw [Rq.value, Finset.mul_sum, Finset.mul_sum]
          exact Finset.sum_congr rfl fun i _ => by rw [← mul_assoc, hcls, mul_assoc]
      _ = 4294967296 * Rq.value (4294967296 * p.element) k := by
          rw [Butterfly.sum_inverses _ k.isLt, Transform.classes_of_lt _ k.isLt, Rq.value_mul,
            Rq.value_ofNat, value_element, ← mul_assoc, hfactor, mul_assoc]
          rfl
  · rw [hget]
    have h1 := two_mul_abs_mulMontgomery_le hscale (g.get j)
    exact abs_le.1 (by omega)

end Poly

/-! ## Representatives of an element -/

namespace Rq

/-- The representatives of the coefficients in `[0, q)`. -/
def canonical (a : Rq) : Poly .plain := .ofFn fun i => Int32.ofNat (a.coeff i).val

/-- The representatives of the coefficients nearest to zero. -/
def centred (a : Rq) : Poly .plain := .ofFn fun i => Int32.ofInt (a.coeff i).valMinAbs

theorem toInt_canonical (a : Rq) (j : Fin 256) : (a.canonical.number j).toInt = (a.coeff j).val := by
  have := ZMod.val_lt (a.coeff j)
  rw [canonical, Poly.number_ofFn]
  exact Int32.toInt_ofNat_of_lt (by norm_num; omega)

theorem abs_valMinAbs_le (x : Zq) : |x.valMinAbs| ≤ 4190208 := by
  have h := x.valMinAbs_mem_Ioc
  rw [Set.mem_Ioc] at h
  exact abs_le.2 ⟨by omega, by omega⟩

theorem toInt_centred (a : Rq) (j : Fin 256) :
    (a.centred.number j).toInt = (a.coeff j).valMinAbs := by
  have := abs_le.1 (abs_valMinAbs_le (a.coeff j))
  rw [centred, Poly.number_ofFn]
  exact Int32.toInt_ofInt_of_le (by norm_num; omega) (by norm_num; omega)

end Rq

namespace Poly

open Residue

theorem valMinAbs_intCast {x : ℤ} (h : |x| ≤ 4190208) : (x : Zq).valMinAbs = x := by
  have := abs_le.1 h
  exact (ZMod.valMinAbs_spec _ _).2 ⟨rfl, by rw [Set.mem_Ioc]; constructor <;> push_cast <;> omega⟩

theorem val_intCast_of_range {x : ℤ} (h : 0 ≤ x) (h' : x ≤ 8380416) : ((x : Zq).val : ℤ) = x := by
  rw [ZMod.val_intCast]
  exact Int.emod_eq_of_lt h (by push_cast; omega)

theorem eq_canonical {p : Poly .plain} (h : p.Within 0 8380416) : p = p.element.canonical := by
  refine ext_number fun j => Int32.toInt_inj.1 ?_
  rw [Rq.toInt_canonical, coeff_element, cls]
  exact (val_intCast_of_range (h j).1 (h j).2).symm

theorem toInt_of_within {p : Poly .plain} (h : p.Within 0 8380416) (j : Fin 256) :
    (p.number j).toInt = (p.element.coeff j).val := by
  conv_lhs => rw [eq_canonical h]
  exact Rq.toInt_canonical _ j

theorem eq_centred {p : Poly .plain} (h : p.Within (-4190208) 4190208) : p = p.element.centred := by
  refine ext_number fun j => Int32.toInt_inj.1 ?_
  rw [Rq.toInt_centred, coeff_element, cls]
  exact (valMinAbs_intCast (abs_le.2 (h j))).symm

/-! ## Norms -/

theorem foldl_or_eq_zero {α : Type} (f : α → UInt32) (l : List α) (acc : UInt32) :
    l.foldl (fun acc c => acc ||| f c) acc = 0 ↔ acc = 0 ∧ ∀ c ∈ l, f c = 0 := by
  induction l generalizing acc with
  | nil => simp
  | cons c l ih =>
    rw [List.foldl_cons, ih, UInt32.or_eq_zero_iff, List.forall_mem_cons, and_assoc]

theorem normBelow_iff {d : Domain} {p : Poly d} {bound : Int32} (hp : p.Within (-1073741824) 1073741823)
    (hb : 1 ≤ bound.toInt) (hb' : bound.toInt ≤ 1047552) :
    p.normBelow bound = true ↔ ∀ j, |(p.number j).toInt| < bound.toInt := by
  have htest : ∀ x : Int32, -1073741824 ≤ x.toInt → x.toInt ≤ 1073741823 →
      (Rounding.signBit (bound - 1 - magnitude x) = 0 ↔ |x.toInt| < bound.toInt) := by
    intro x hlo hhi
    have hm := toInt_magnitude hlo
    have habs : |x.toInt| ≤ 1073741824 := abs_le.2 ⟨by linarith, by linarith⟩
    have hnn := abs_nonneg x.toInt
    have hone : (1 : Int32).toInt = 1 := rfl
    have hs : (bound - 1).toInt = bound.toInt - 1 := Words.toInt_sub (by rw [hone]; omega) (by rw [hone]; omega)
    have hd : (bound - 1 - magnitude x).toInt = bound.toInt - 1 - |x.toInt| := by
      rw [Words.toInt_sub (by rw [hs, hm]; omega) (by rw [hs, hm]; omega), hs, hm]
    rw [Words.signBit_eq, hd]
    split
    · exact ⟨fun h => absurd h (by decide), fun h => by omega⟩
    · exact ⟨fun _ => by omega, fun _ => rfl⟩
  have hle : bound ≤ 1047552 := Int32.le_iff_toInt_le.2 hb'
  unfold normBelow
  rw [Bool.and_eq_true, decide_eq_true_iff, beq_iff_eq, ← Vector.foldl_toList, foldl_or_eq_zero]
  constructor
  · rintro ⟨-, -, h⟩ j
    exact (htest _ (hp j).1 (hp j).2).1 (h _ (Vector.mem_toList_iff.2 (Vector.getElem_mem j.isLt)))
  · refine fun h => ⟨hle, rfl, fun c hc => ?_⟩
    obtain ⟨i, hi, rfl⟩ := List.getElem_of_mem hc
    have hj : i < 256 := by simpa using hi
    exact (htest _ (hp ⟨i, hj⟩).1 (hp ⟨i, hj⟩).2).2 (h ⟨i, hj⟩)

/-- Two representatives of a class are on the same side of a small bound, if one is nearest to zero
and the other comes from a reduction. -/
theorem abs_lt_iff_abs_valMinAbs_lt {x B : ℤ} (h : -6283009 ≤ x) (h' : x ≤ 6283008)
    (hB : B ≤ 2097408) : |x| < B ↔ |(x : Zq).valMinAbs| < B := by
  obtain ⟨k, hk⟩ := intCast_eq_iff.1 (ZMod.coe_valMinAbs (x : Zq))
  have hv := abs_le.1 (Rq.abs_valMinAbs_le (x : Zq))
  rw [abs_lt, abs_lt, hk] at *
  have : k = -1 ∨ k = 0 ∨ k = 1 := by omega
  rcases this with rfl | rfl | rfl <;> omega

/-- **The norm test of a reduced polynomial** is about the representatives nearest to zero. -/
theorem normBelow_iff_centred {p : Poly .plain} {bound : Int32} (hp : p.Within (-6283009) 6283008)
    (hb : 1 ≤ bound.toInt) (hb' : bound.toInt ≤ 1047552) :
    p.normBelow bound = true ↔ ∀ i, |(p.element.coeff i).valMinAbs| < bound.toInt := by
  rw [normBelow_iff (hp.mono (by norm_num) (by norm_num)) hb hb']
  exact forall_congr' fun j => abs_lt_iff_abs_valMinAbs_lt (hp j).1 (hp j).2 (by linarith)

/-! ## Weights -/

theorem toList_coeffs {d : Domain} (p : Poly d) :
    p.coeffs.toList = (List.finRange 256).map p.number := by
  refine List.ext_getElem (by simp) fun i _ _ => ?_
  simp [number]
  rfl

theorem weight_eq_card (p : Poly .plain) :
    p.weight = (Finset.univ.filter fun j => p.number j ≠ 0).card := by
  rw [weight, toList_coeffs, List.countP_map, List.countP_eq_length_filter, Finset.card_def,
    Finset.filter_val, Fin.univ_def]
  simp [Function.comp_def]
  rfl

end Poly

end LatticeSignature
