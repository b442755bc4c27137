import LatticeSignature.Proofs.Residue
import Mathlib.Algebra.BigOperators.Fin
import Mathlib.Algebra.Ring.InjSurj
import Mathlib.Tactic.LinearCombination

/-!
# The ring `ℤ_q[X]/(X^256 + 1)`

Elements are given by their 256 coefficients and multiplied as on paper: `X^256` counts as `-1`.
They are determined by their values at the 256 roots of `X^256 + 1`, the odd powers of 1753.

* `Rq`, `Rq.mul`: coefficients and the schoolbook product.
* `Rq.root`, `Rq.value`: the roots in bit-reversed order, and the value at one.
* `Rq.value_mul`, `Rq.value_add`: taking a value is compatible with the operations.
-/

namespace LatticeSignature

/-- Elements of `ℤ_q[X]/(X^256 + 1)`. -/
@[ext]
structure Rq where
  /-- The coefficient of each power of `X`. -/
  coeff : Fin 256 → Zq

namespace Rq

/-! ## Operations on coefficients -/

instance : Zero Rq := ⟨⟨fun _ => 0⟩⟩

instance : One Rq := ⟨⟨fun i => if i.val = 0 then 1 else 0⟩⟩

instance : Add Rq := ⟨fun a b => ⟨fun i => a.coeff i + b.coeff i⟩⟩

instance : Neg Rq := ⟨fun a => ⟨fun i => -a.coeff i⟩⟩

instance : Sub Rq := ⟨fun a b => ⟨fun i => a.coeff i - b.coeff i⟩⟩

/-- The schoolbook product: the product of `X^i` and `X^j` is `X^(i + j)`, or `-X^(i + j - 256)`. -/
def mul (a b : Rq) : Rq :=
  ⟨fun k => ∑ i, ∑ j, if i.val + j.val = k.val then a.coeff i * b.coeff j
    else if i.val + j.val = k.val + 256 then -(a.coeff i * b.coeff j) else 0⟩

instance : Mul Rq := ⟨mul⟩

@[simp]
theorem coeff_zero (i : Fin 256) : (0 : Rq).coeff i = 0 := rfl

@[simp]
theorem coeff_add (a b : Rq) (i : Fin 256) : (a + b).coeff i = a.coeff i + b.coeff i := rfl

@[simp]
theorem coeff_neg (a : Rq) (i : Fin 256) : (-a).coeff i = -a.coeff i := rfl

@[simp]
theorem coeff_sub (a b : Rq) (i : Fin 256) : (a - b).coeff i = a.coeff i - b.coeff i := rfl

theorem coeff_mul (a b : Rq) (k : Fin 256) : (a * b).coeff k =
    ∑ i, ∑ j, if i.val + j.val = k.val then a.coeff i * b.coeff j
      else if i.val + j.val = k.val + 256 then -(a.coeff i * b.coeff j) else 0 := rfl

/-! ## Values at the roots -/

/-- The number whose eight binary digits are those of `k` in reverse. -/
def bitReverse (k : ℕ) : ℕ :=
  k % 2 * 128 + k / 2 % 2 * 64 + k / 4 % 2 * 32 + k / 8 % 2 * 16 + k / 16 % 2 * 8 + k / 32 % 2 * 4 +
    k / 64 % 2 * 2 + k / 128 % 2

/-- A root of unity of order 512. -/
def generator : Zq := Params.rootOfUnity

/-- The roots of `X^256 + 1` in the order of the transform. -/
def root (k : ℕ) : Zq := generator ^ (2 * bitReverse k + 1)

/-- The value of an element at root `k`. -/
def value (a : Rq) (k : Fin 256) : Zq := ∑ i, a.coeff i * root k ^ i.val

theorem generator_pow : generator ^ 256 = -1 := by
  rw [generator, ← Nat.cast_pow,
    show (-1 : Zq) = ((8380416 : ℕ) : Zq) by decide]
  exact (ZMod.natCast_eq_natCast_iff _ _ _).2 (by decide +kernel)

theorem root_pow (k : ℕ) : root k ^ 256 = -1 := by
  unfold root
  rw [← pow_mul, mul_comm, pow_mul, generator_pow, pow_succ, pow_mul, neg_one_sq, one_pow, one_mul]

@[simp]
theorem value_zero (k : Fin 256) : value 0 k = 0 := by simp [value]

@[simp]
theorem value_one (k : Fin 256) : value 1 k = 1 := by
  unfold value
  rw [Finset.sum_eq_single 0]
  · change (1 : Zq) * root k ^ 0 = 1
    rw [pow_zero, one_mul]
  · intro i _ hi
    change (if i.val = 0 then (1 : Zq) else 0) * _ = 0
    rw [if_neg (fun h : i.val = 0 => hi (Fin.ext h)), zero_mul]
  · exact fun h => absurd (Finset.mem_univ _) h

@[simp]
theorem value_add (a b : Rq) (k : Fin 256) : value (a + b) k = value a k + value b k := by
  simp only [value, coeff_add, add_mul, Finset.sum_add_distrib]

@[simp]
theorem value_neg (a : Rq) (k : Fin 256) : value (-a) k = -value a k := by
  simp only [value, coeff_neg, neg_mul, Finset.sum_neg_distrib]

@[simp]
theorem value_sub (a b : Rq) (k : Fin 256) : value (a - b) k = value a k - value b k := by
  simp only [value, coeff_sub, sub_mul, Finset.sum_sub_distrib]

/-- The one power of `X` that `X^i · X^j` is, up to sign, has the value `x^i · x^j`. -/
theorem sum_monomial {x : Zq} (hx : x ^ 256 = -1) (c : Zq) (i j : Fin 256) :
    ∑ k : Fin 256, (if i.val + j.val = k.val then c
      else if i.val + j.val = k.val + 256 then -c else 0) * x ^ k.val = c * x ^ (i.val + j.val) := by
  by_cases h : i.val + j.val < 256
  · rw [Finset.sum_eq_single ⟨i.val + j.val, h⟩]
    · rw [if_pos rfl]
    · intro k _ hk
      rw [if_neg (fun e => hk (Fin.ext e.symm)), if_neg (by omega), zero_mul]
    · exact fun h => absurd (Finset.mem_univ _) h
  · rw [Finset.sum_eq_single ⟨i.val + j.val - 256, by omega⟩]
    · have hp : x ^ (i.val + j.val) = -x ^ (i.val + j.val - 256) := by
        rw [← mul_neg_one, ← hx, ← pow_add, Nat.sub_add_cancel (by omega)]
      rw [if_neg (by simp only; omega), if_pos (by simp only; omega), hp, neg_mul, mul_neg]
    · intro k _ hk
      have := k.isLt
      rw [if_neg (by omega), if_neg, zero_mul]
      exact fun e => hk (Fin.ext (by simp only; omega))
    · exact fun h => absurd (Finset.mem_univ _) h

/-- **The value of a product is the product of the values.** -/
@[simp]
theorem value_mul (a b : Rq) (k : Fin 256) : value (a * b) k = value a k * value b k := by
  unfold value
  simp only [coeff_mul, Finset.sum_mul]
  rw [Finset.sum_comm]
  refine Finset.sum_congr rfl fun i _ => ?_
  rw [Finset.sum_comm, Finset.mul_sum]
  refine Finset.sum_congr rfl fun j _ => ?_
  rw [sum_monomial (root_pow k), pow_add]
  ring

end Rq

end LatticeSignature
