import LatticeSignature.Proofs.Words
import Mathlib.Data.ZMod.Basic

/-!
# Representatives and residue classes

A 32-bit representative stands for a class modulo `q`. Each reduction keeps the class, up to the
Montgomery factor, and brings the representative into a range of its own.

* `Zq`, `Residue.cls`: the classes, and the class of a representative.
* `exists_montgomery_mul`: the exact quotient, from which class and range of a product follow.
* **`cls_mulMontgomery`**, **`abs_mulMontgomery_le`**: the class and the range of any product of two words;
  `two_mul_abs_mulMontgomery_le`: the range for one bounded factor.
* `toInt_reduce`, `cls_reduce`, `cls_lift`, `toInt_magnitude`.
* `cls_eq_iff`: equal classes mean a difference that is a multiple of `q`.
-/

namespace LatticeSignature

/-- The residue classes modulo `q`. -/
abbrev Zq := ZMod 8380417

namespace Residue

/-- The class of a representative. -/
def cls (a : Int32) : Zq := (a.toInt : Zq)

theorem intCast_eq_iff {x y : ℤ} : (x : Zq) = y ↔ ∃ k, x = y + k * 8380417 := by
  rw [ZMod.intCast_eq_intCast_iff_dvd_sub]
  push_cast
  exact ⟨fun ⟨k, hk⟩ => ⟨-k, by linarith⟩, fun ⟨k, hk⟩ => ⟨-k, by rw [hk]; ring⟩⟩

theorem cls_eq_iff {a b : Int32} : cls a = cls b ↔ ∃ k, a.toInt = b.toInt + k * 8380417 :=
  intCast_eq_iff

/-! ## The Montgomery quotient -/

theorem cls_montgomeryOne : cls montgomeryOne = 4294967296 := by decide

/-- `2 ^ 32` is a unit modulo `q`. -/
theorem two_pow_mul_inj {x y : Zq} : 4294967296 * x = 4294967296 * y ↔ x = y := by
  refine ⟨fun h => ?_, fun h => by rw [h]⟩
  have hinv : (8265825 : Zq) * 4294967296 = 1 := by decide
  calc x = 8265825 * (4294967296 * x) := by rw [← mul_assoc, hinv, one_mul]
    _ = y := by rw [h, ← mul_assoc, hinv, one_mul]

theorem toInt_sub_mul_q {a : Int64} (h : -9205375228383854592 ≤ a.toInt)
    (h' : a.toInt < 9205375228383854592) (t : Int32) :
    (a - t.toInt64 * Params.q.toInt64).toInt = a.toInt - t.toInt * 8380417 := by
  have hlo : -2147483648 ≤ t.toInt := t.le_toInt
  have hhi : t.toInt < 2147483648 := t.toInt_lt
  rw [Int64.toInt_sub, Words.toInt_mul_toInt64, Words.toInt_q]
  exact Int.bmod_eq_of_le (by norm_num; omega) (by norm_num; omega)

/-- **The Montgomery quotient is exact**: it takes away a multiple `t · q` that makes the low half
vanish. -/
theorem exists_montgomery_mul (a : Int64) (h : -9205375228383854592 ≤ a.toInt)
    (h' : a.toInt < 9205375228383854592) :
    ∃ t : ℤ, -2147483648 ≤ t ∧ t < 2147483648 ∧
      (montgomery a).toInt * 4294967296 = a.toInt - t * 8380417 := by
  let t : Int32 := a.toInt32 * qInverse
  have hlo : -2147483648 ≤ t.toInt := t.le_toInt
  have hhi : t.toInt < 2147483648 := t.toInt_lt
  refine ⟨t.toInt, hlo, hhi, ?_⟩
  have ht : t.toInt = (a.toInt.bmod 4294967296 * 58728449).bmod 4294967296 := by
    change (a.toInt32 * qInverse).toInt = _
    rw [Int32.toInt_mul, Int64.toInt_toInt32]
    rfl
  have hsub := toInt_sub_mul_q h h' t
  -- the low half of `a - t q` vanishes, since `58728449 q` is 1 modulo `2 ^ 32`
  have hdvd : ∃ r : ℤ, a.toInt - t.toInt * 8380417 = r * 4294967296 := by
    have h1 := Int.bmod_add_bdiv a.toInt 4294967296
    have h2 := Int.bmod_add_bdiv (a.toInt.bmod 4294967296 * 58728449) 4294967296
    rw [← ht] at h2
    push_cast at h1 h2
    refine ⟨a.toInt.bdiv 4294967296 - 114592 * a.toInt.bmod 4294967296 +
      (a.toInt.bmod 4294967296 * 58728449).bdiv 4294967296 * 8380417, ?_⟩
    linarith
  obtain ⟨r, hr⟩ := hdvd
  have hshift := Words.toInt64_shiftRight (a - t.toInt64 * Params.q.toInt64) 32 32 (by decide)
  have hm : (montgomery a).toInt = r := by
    change ((a - t.toInt64 * Params.q.toInt64) >>> 32).toInt32.toInt = r
    rw [Int64.toInt_toInt32, hshift, hsub, hr]
    norm_num
    exact Int.bmod_eq_of_le (by norm_num; omega) (by norm_num; omega)
  rw [hm, hr]

theorem abs_toInt_mul_le {a b : Int32} {A B : ℤ} (ha : |a.toInt| ≤ A) (hb : |b.toInt| ≤ B) :
    |a.toInt * b.toInt| ≤ A * B := by
  rw [abs_mul]
  exact mul_le_mul ha hb (abs_nonneg _) ((abs_nonneg _).trans ha)

theorem exists_mulMontgomery_mul (a b : Int32) :
    ∃ t : ℤ, -2147483648 ≤ t ∧ t < 2147483648 ∧
      (mulMontgomery a b).toInt * 4294967296 = a.toInt * b.toInt - t * 8380417 := by
  have hm := Words.toInt_mul_toInt64 a b
  obtain ⟨hlo, hhi⟩ := abs_le.1 (abs_toInt_mul_le (Words.abs_toInt_le a) (Words.abs_toInt_le b))
  obtain ⟨t, ht, ht', hr⟩ :=
    exists_montgomery_mul (a.toInt64 * b.toInt64) (by rw [hm]; omega) (by rw [hm]; omega)
  exact ⟨t, ht, ht', by rw [← hm]; exact hr⟩

/-- **A product is the class product**, up to the Montgomery factor. -/
theorem cls_mulMontgomery (a b : Int32) : 4294967296 * cls (mulMontgomery a b) = cls a * cls b := by
  obtain ⟨t, -, -, ht⟩ := exists_mulMontgomery_mul a b
  have hc : ((4294967296 * (mulMontgomery a b).toInt : ℤ) : Zq) = (a.toInt * b.toInt : ℤ) :=
    intCast_eq_iff.2 ⟨-t, by linarith⟩
  push_cast at hc
  exact hc

/-- **The range of a product**: what is multiplied shrinks by `2 ^ 32`, and half of `q` is added. -/
theorem abs_mulMontgomery_le (a b : Int32) :
    4294967296 * |(mulMontgomery a b).toInt| ≤ |a.toInt * b.toInt| + 17996808470921216 := by
  obtain ⟨t, hlo, hhi, ht⟩ := exists_mulMontgomery_mul a b
  have hab := abs_le.1 (le_refl |a.toInt * b.toInt|)
  rcases abs_cases (mulMontgomery a b).toInt with ⟨hr, -⟩ | ⟨hr, -⟩ <;> omega

theorem abs_mulMontgomery_le_of_abs_le {a b : Int32} {A B M : ℤ} (ha : |a.toInt| ≤ A)
    (hb : |b.toInt| ≤ B) (h : A * B + 17996808470921216 < 4294967296 * (M + 1)) :
    |(mulMontgomery a b).toInt| ≤ M := by
  have hab := abs_toInt_mul_le ha hb
  have hle := abs_mulMontgomery_le a b
  omega

/-- Half of a bounded factor and half of `q` bound the quotient, whatever the other factor is. -/
theorem two_mul_abs_mulMontgomery_le {a : Int32} {A : ℤ} (ha : |a.toInt| ≤ A) (b : Int32) :
    2 * |(mulMontgomery a b).toInt| ≤ A + 8380417 := by
  have hab := abs_toInt_mul_le ha (Words.abs_toInt_le b)
  have hle := abs_mulMontgomery_le a b
  omega

/-! ## Reductions without a factor -/

theorem toInt_reduce {a : Int32} (h : a.toInt ≤ 2143289343) :
    (reduce a).toInt = a.toInt - (a.toInt + 4194304) / 8388608 * 8380417 := by
  have hlo := a.le_toInt
  norm_num at hlo
  have hadd : (a + 4194304).toInt = a.toInt + 4194304 :=
    Words.toInt_add (by rw [show (4194304 : Int32).toInt = 4194304 from rfl]; omega)
      (by rw [show (4194304 : Int32).toInt = 4194304 from rfl]; omega)
  have ht : ((a + 4194304) >>> 23).toInt = (a.toInt + 4194304) / 8388608 := by
    rw [Words.toInt_shiftRight _ _ 23 (by decide), hadd]
    norm_num
  have hmul : ((a + 4194304) >>> 23 * Params.q).toInt =
      (a.toInt + 4194304) / 8388608 * 8380417 := by
    rw [Words.toInt_mul (by rw [ht, Words.toInt_q]; omega) (by rw [ht, Words.toInt_q]; omega), ht,
      Words.toInt_q]
  change (a - (a + 4194304) >>> 23 * Params.q).toInt = _
  rw [Words.toInt_sub (by rw [hmul]; omega) (by rw [hmul]; omega), hmul]

/-- **Reduction keeps the class and comes near zero.** -/
theorem cls_reduce {a : Int32} (h : a.toInt ≤ 2143289343) :
    cls (reduce a) = cls a ∧ -6283009 ≤ (reduce a).toInt ∧ (reduce a).toInt ≤ 6283008 := by
  have hlo := a.le_toInt
  norm_num at hlo
  have hr := toInt_reduce h
  exact ⟨cls_eq_iff.2 ⟨-((a.toInt + 4194304) / 8388608), by rw [hr]; ring⟩, by omega, by omega⟩

theorem toInt_lift (a : Int32) :
    (lift a).toInt = if a.toInt < 0 then a.toInt + 8380417 else a.toInt := by
  have hlo := a.le_toInt
  have hhi := a.toInt_lt
  norm_num at hlo hhi
  unfold lift
  rw [Words.signMask_and]
  split
  · rw [Words.toInt_add (by rw [Words.toInt_q]; omega) (by rw [Words.toInt_q]; omega), Words.toInt_q]
  · rw [Int32.add_zero]

theorem cls_lift {a : Int32} (h : -8380417 ≤ a.toInt) (h' : a.toInt < 8380417) :
    cls (lift a) = cls a ∧ 0 ≤ (lift a).toInt ∧ (lift a).toInt ≤ 8380416 := by
  have hl := toInt_lift a
  refine ⟨cls_eq_iff.2 ⟨if a.toInt < 0 then 1 else 0, ?_⟩, ?_, ?_⟩ <;> split at hl <;> simp_all <;> omega

theorem toInt_magnitude {a : Int32} (h : -1073741824 ≤ a.toInt) : (magnitude a).toInt = |a.toInt| := by
  have hhi := a.toInt_lt
  norm_num at hhi
  unfold magnitude
  rw [Words.signMask_and]
  split
  · have h2 : (2 * a).toInt = 2 * a.toInt := by
      have : (2 : Int32).toInt = 2 := rfl
      rw [Words.toInt_mul (by rw [this]; omega) (by rw [this]; omega), this]
    rw [Words.toInt_sub (by rw [h2]; omega) (by rw [h2]; omega), h2, abs_of_neg (by omega)]
    ring
  · rw [Int32.sub_zero, abs_of_nonneg (by omega)]

end Residue

end LatticeSignature
