import LatticeSignature.Proofs.Butterfly
import Mathlib.Algebra.Ring.Pi
import Mathlib.Data.Fintype.Pi
import Mathlib.Data.Fintype.EquivFin

/-!
# Elements and their values

An element of the ring is determined by its values at the 256 roots, and any values occur. Since
values add and multiply, the ring laws carry over from the residue classes.

* **`Rq.value_bijective`**: elements correspond to families of values.
* `Rq.ofValues`: the element with given values.
* the commutative ring `Rq`.
-/

namespace LatticeSignature.Rq

/-! ## Values determine an element -/

theorem value_surjective : Function.Surjective value := by
  intro f
  let v : ℕ → Zq := fun i => if h : i < 256 then f ⟨i, h⟩ else 0
  refine ⟨⟨fun i => 8347681 * Butterfly.inverses v 8 i⟩, funext fun k => ?_⟩
  have hinv : (8347681 : Zq) * 256 = 1 := by decide
  have hv : v k = f k := dif_pos k.isLt
  calc value ⟨fun i => 8347681 * Butterfly.inverses v 8 i⟩ k
      = 8347681 * ∑ i : Fin 256, Butterfly.inverses v 8 i * root k ^ i.val := by
        rw [value, Finset.mul_sum]
        exact Finset.sum_congr rfl fun i _ => mul_assoc _ _ _
    _ = f k := by rw [Butterfly.sum_inverses v k.isLt, ← mul_assoc, hinv, one_mul, hv]

/-- **Elements correspond to families of values.** -/
theorem value_bijective : Function.Bijective value := by
  let e : Rq ≃ (Fin 256 → Zq) := ⟨coeff, Rq.mk, fun _ => rfl, fun _ => rfl⟩
  have : Finite Rq := Finite.of_equiv _ e.symm
  exact ⟨(Finite.injective_iff_surjective_of_equiv e).2 value_surjective, value_surjective⟩

theorem value_injective : Function.Injective value := value_bijective.1

/-- The element with given values at the roots. -/
noncomputable def ofValues (f : Fin 256 → Zq) : Rq := (Equiv.ofBijective value value_bijective).symm f

@[simp]
theorem value_ofValues (f : Fin 256 → Zq) : value (ofValues f) = f :=
  (Equiv.ofBijective value value_bijective).apply_symm_apply f

/-! ## The commutative ring -/

instance : SMul ℕ Rq := ⟨fun n a => ⟨fun i => n • a.coeff i⟩⟩

instance : SMul ℤ Rq := ⟨fun n a => ⟨fun i => n • a.coeff i⟩⟩

instance : Pow Rq ℕ := ⟨fun a n => npowRec n a⟩

instance : NatCast Rq := ⟨fun n => n • 1⟩

instance : IntCast Rq := ⟨fun n => n • 1⟩

theorem value_nsmul (n : ℕ) (a : Rq) (k : Fin 256) : value (n • a) k = n • value a k := by
  change ∑ i, n • a.coeff i * root k ^ i.val = n • ∑ i, a.coeff i * root k ^ i.val
  rw [← Finset.sum_nsmul]
  exact Finset.sum_congr rfl fun i _ => smul_mul_assoc n _ _

theorem value_zsmul (n : ℤ) (a : Rq) (k : Fin 256) : value (n • a) k = n • value a k := by
  change ∑ i, n • a.coeff i * root k ^ i.val = n • ∑ i, a.coeff i * root k ^ i.val
  rw [← Finset.sum_zsmul]
  exact Finset.sum_congr rfl fun i _ => smul_mul_assoc n _ _

theorem value_npow (a : Rq) (n : ℕ) (k : Fin 256) : value (a ^ n) k = value a k ^ n := by
  induction n with
  | zero => exact value_one k
  | succ n ih =>
    rw [pow_succ, ← ih]
    exact value_mul (a ^ n) a k

theorem value_natCast (n : ℕ) (k : Fin 256) : value (n : Rq) k = n := by
  change value (n • (1 : Rq)) k = _
  rw [value_nsmul, value_one, nsmul_one]

theorem value_intCast (n : ℤ) (k : Fin 256) : value (n : Rq) k = n := by
  change value (n • (1 : Rq)) k = _
  rw [value_zsmul, value_one, zsmul_one]

instance : CommRing Rq := by
  refine value_injective.commRing value ?_ ?_ ?_ ?_ ?_ ?_ ?_ ?_ ?_ ?_ ?_
  · funext k
    rw [value_zero, Pi.zero_apply]
  · funext k
    rw [value_one, Pi.one_apply]
  · intro a b
    funext k
    rw [value_add, Pi.add_apply]
  · intro a b
    funext k
    rw [value_mul, Pi.mul_apply]
  · intro a
    funext k
    rw [value_neg, Pi.neg_apply]
  · intro a b
    funext k
    rw [value_sub, Pi.sub_apply]
  · intro n a
    funext k
    rw [value_nsmul, Pi.smul_apply]
  · intro n a
    funext k
    rw [value_zsmul, Pi.smul_apply]
  · intro a n
    funext k
    rw [value_npow, Pi.pow_apply]
  · intro n
    funext k
    rw [value_natCast, Pi.natCast_apply]
  · intro n
    funext k
    rw [value_intCast, Pi.intCast_apply]

@[simp]
theorem value_ofNat (n : ℕ) [n.AtLeastTwo] (k : Fin 256) :
    value (OfNat.ofNat n : Rq) k = (OfNat.ofNat n : Zq) := value_natCast n k

theorem value_sum {ι : Type} (s : Finset ι) (f : ι → Rq) (k : Fin 256) :
    value (∑ i ∈ s, f i) k = ∑ i ∈ s, value (f i) k :=
  map_sum (⟨⟨fun a => value a k, value_zero k⟩, fun a b => value_add a b k⟩ : Rq →+ Zq) f s

theorem coeff_intCast_mul (n : ℤ) (a : Rq) (i : Fin 256) : ((n : Rq) * a).coeff i = n * a.coeff i := by
  have h : (n : Rq) * a = n • a := (zsmul_eq_mul a n).symm
  rw [h]
  exact zsmul_eq_mul (a.coeff i) n

theorem coeff_ofNat_mul (n : ℕ) [n.AtLeastTwo] (a : Rq) (i : Fin 256) :
    ((OfNat.ofNat n : Rq) * a).coeff i = OfNat.ofNat n * a.coeff i := by
  have h : (OfNat.ofNat n : Rq) * a = n • a := by
    rw [nsmul_eq_mul]
    rfl
  rw [h]
  exact nsmul_eq_mul n (a.coeff i)

end LatticeSignature.Rq
