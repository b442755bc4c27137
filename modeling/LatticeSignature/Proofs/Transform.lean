import LatticeSignature.Poly.Transform
import LatticeSignature.Proofs.Interpolation

/-!
# The transform on representatives

The layers of the transform, computed on unreduced 32-bit representatives, are the layers on residue
classes as long as no sum overflows. Each forward layer lets the numbers grow by three quarters of `q`
at most; the sums of the inverse layers double, which 256 numbers below `q` just bear.

* `Transform.classes`: the classes of 256 representatives.
* `Transform.cls_zetas`: the table holds the powers of the root of unity in Montgomery form.
* **`forwardFrom_spec`**, **`inverseUpTo_spec`**: what the layers compute, and how far they grow.
-/

namespace LatticeSignature.Transform

open Residue Butterfly

/-- The classes of 256 representatives. -/
def classes (v : Vector Int32 256) (i : ℕ) : Zq := if h : i < 256 then cls v[i] else 0

theorem classes_of_lt (v : Vector Int32 256) {i : ℕ} (h : i < 256) : classes v i = cls v[i] := dif_pos h

/-! ## The table of powers -/

set_option maxRecDepth 4000 in
theorem zetas_table : ∀ k : Fin 256, k.val ≠ 0 →
    ((zetas.get k).toInt - montgomeryOne.toInt * Params.rootOfUnity ^ Rq.bitReverse k) % 8380417 = 0 ∧
      (zetas.get k).toInt.natAbs ≤ 4190208 := by
  decide +kernel

theorem cls_zetas {k : Fin 256} (hk : k.val ≠ 0) :
    cls (zetas.get k) = 4294967296 * Rq.generator ^ Rq.bitReverse k := by
  obtain ⟨h, -⟩ := zetas_table k hk
  have hc : ((zetas.get k).toInt : Zq) =
      ((montgomeryOne.toInt * Params.rootOfUnity ^ Rq.bitReverse k : ℤ) : Zq) := by
    rw [ZMod.intCast_eq_intCast_iff_dvd_sub]
    push_cast
    omega
  rw [cls, hc, Rq.generator, ← cls_montgomeryOne, cls]
  norm_cast

theorem abs_zetas {k : Fin 256} (hk : k.val ≠ 0) : |(zetas.get k).toInt| ≤ 4190208 := by
  have h := (zetas_table k hk).2
  rw [Int.abs_eq_natAbs]
  exact_mod_cast h

theorem mulMontgomery_zetas {k : Fin 256} (hk : k.val ≠ 0) (x : Int32) :
    cls (mulMontgomery (zetas.get k) x) = Rq.generator ^ Rq.bitReverse k * cls x ∧
      |(mulMontgomery (zetas.get k) x).toInt| ≤ 6285312 := by
  have hc := cls_mulMontgomery (zetas.get k) x
  have hb := two_mul_abs_mulMontgomery_le (abs_zetas hk) x
  rw [cls_zetas hk, mul_assoc] at hc
  exact ⟨two_pow_mul_inj.1 hc, by omega⟩

theorem mulMontgomery_neg_zetas {k : Fin 256} (hk : k.val ≠ 0) (x : Int32) :
    cls (mulMontgomery (-zetas.get k) x) = -Rq.generator ^ Rq.bitReverse k * cls x ∧
      |(mulMontgomery (-zetas.get k) x).toInt| ≤ 8380416 := by
  have hz := abs_le.1 (abs_zetas hk)
  have hn : (-zetas.get k).toInt = -(zetas.get k).toInt := Words.toInt_neg (by omega)
  have hc := cls_mulMontgomery (-zetas.get k) x
  have hb := two_mul_abs_mulMontgomery_le (a := -zetas.get k) (A := 4190208)
    (by rw [hn, abs_neg]; exact abs_zetas hk) x
  have hcls : cls (-zetas.get k) = 4294967296 * -Rq.generator ^ Rq.bitReverse k := by
    rw [mul_neg, ← cls_zetas hk, cls, hn, Int.cast_neg, cls]
  rw [hcls, mul_assoc] at hc
  exact ⟨two_pow_mul_inj.1 hc, by omega⟩

/-! ## One layer -/

section Layer

variable (s : Fin 8) (v : Vector Int32 256) {B : ℤ}

theorem zeta_lt {i : ℕ} (hi : i < 256) : 2 ^ (7 - s.val) + i / 2 ^ (s.val + 1) < 256 := by
  simpa [Nat.one_shiftLeft] using root_lt s ⟨i, hi⟩

theorem inverseZeta_lt {i : ℕ} (hi : i < 256) :
    2 ^ (8 - s.val) - 1 - i / 2 ^ (s.val + 1) < 256 := by
  simpa [Nat.one_shiftLeft] using rootFromEnd_lt s ⟨i, hi⟩

theorem getElem_forwardLayer_of_lt {i : ℕ} (hi : i < 256) (h : i % 2 ^ (s.val + 1) < 2 ^ s.val)
    (hlt : i + 2 ^ s.val < 256) : (forwardLayer s v)[i] =
      v[i] + mulMontgomery (zetas.get ⟨_, zeta_lt s hi⟩) v[i + 2 ^ s.val] := by
  simp only [forwardLayer, Vector.getElem_ofFn, Nat.one_shiftLeft, dif_pos h]
  rfl

theorem getElem_forwardLayer_of_le {i : ℕ} (hi : i < 256) (h : ¬i % 2 ^ (s.val + 1) < 2 ^ s.val) :
    (forwardLayer s v)[i] =
      v[i - 2 ^ s.val] - mulMontgomery (zetas.get ⟨_, zeta_lt s hi⟩) v[i] := by
  simp only [forwardLayer, Vector.getElem_ofFn, Nat.one_shiftLeft, dif_neg h]
  rfl

theorem getElem_inverseLayer_of_lt {i : ℕ} (hi : i < 256) (h : i % 2 ^ (s.val + 1) < 2 ^ s.val)
    (hlt : i + 2 ^ s.val < 256) : (inverseLayer s v)[i] = v[i] + v[i + 2 ^ s.val] := by
  simp only [inverseLayer, Vector.getElem_ofFn, Nat.one_shiftLeft, dif_pos h]
  rfl

theorem getElem_inverseLayer_of_le {i : ℕ} (hi : i < 256) (h : ¬i % 2 ^ (s.val + 1) < 2 ^ s.val) :
    (inverseLayer s v)[i] =
      mulMontgomery (-zetas.get ⟨_, inverseZeta_lt s hi⟩) (v[i - 2 ^ s.val] - v[i]) := by
  simp only [inverseLayer, Vector.getElem_ofFn, Nat.one_shiftLeft, dif_neg h]
  rfl

/-- **A layer of the transform** on representatives that leave room for one more product. -/
theorem forwardLayer_spec (hB : ∀ (i : ℕ) (_ : i < 256), |v[i].toInt| ≤ B) (hroom : B ≤ 2141198335) :
    ∀ (i : ℕ) (hi : i < 256), classes (forwardLayer s v) i = forward s (classes v) i ∧
      |(forwardLayer s v)[i].toInt| ≤ B + 6285312 := by
  intro i hi
  have hk : 2 ^ (7 - s.val) + i / 2 ^ (s.val + 1) ≠ 0 := by positivity
  rw [classes_of_lt _ hi]
  unfold forward
  split
  · rename_i h
    have hlt := partner_lt s.isLt hi h
    obtain ⟨hc, hb⟩ := mulMontgomery_zetas (k := ⟨_, zeta_lt s hi⟩) hk v[i + 2 ^ s.val]
    have h1 := abs_le.1 (hB i hi)
    have h2 := abs_le.1 hb
    have hsum := Words.toInt_add (a := v[i]) (b := mulMontgomery _ _) (by linarith) (by linarith)
    rw [classes_of_lt _ hi, classes_of_lt _ hlt, getElem_forwardLayer_of_lt s v hi h hlt, cls, hsum]
    refine ⟨?_, abs_le.2 ⟨by linarith, by linarith⟩⟩
    rw [Int.cast_add]
    exact congrArg (cls v[i] + ·) hc
  · rename_i h
    have hlt : i - 2 ^ s.val < 256 := by omega
    obtain ⟨hc, hb⟩ := mulMontgomery_zetas (k := ⟨_, zeta_lt s hi⟩) hk v[i]
    have h1 := abs_le.1 (hB _ hlt)
    have h2 := abs_le.1 hb
    have hsub := Words.toInt_sub (a := v[i - 2 ^ s.val]) (b := mulMontgomery _ _)
      (by linarith) (by linarith)
    rw [classes_of_lt _ hi, classes_of_lt _ hlt, getElem_forwardLayer_of_le s v hi h, cls, hsub]
    refine ⟨?_, abs_le.2 ⟨by linarith, by linarith⟩⟩
    rw [Int.cast_sub]
    exact congrArg (cls v[i - 2 ^ s.val] - ·) hc

/-- **A layer of the inverse** on representatives whose sums fit. -/
theorem inverseLayer_spec (hB : ∀ (i : ℕ) (_ : i < 256), |v[i].toInt| ≤ B) (hlow : 8380416 ≤ 2 * B)
    (hroom : 2 * B ≤ 2147483647) :
    ∀ (i : ℕ) (hi : i < 256), classes (inverseLayer s v) i = inverse s (classes v) i ∧
      |(inverseLayer s v)[i].toInt| ≤ 2 * B := by
  intro i hi
  rw [classes_of_lt _ hi]
  unfold inverse
  split
  · rename_i h
    have hlt := partner_lt s.isLt hi h
    have h1 := abs_le.1 (hB i hi)
    have h2 := abs_le.1 (hB _ hlt)
    have hsum := Words.toInt_add (a := v[i]) (b := v[i + 2 ^ s.val]) (by linarith) (by linarith)
    rw [classes_of_lt _ hi, classes_of_lt _ hlt, getElem_inverseLayer_of_lt s v hi h hlt, cls, hsum]
    exact ⟨Int.cast_add _ _, abs_le.2 ⟨by linarith, by linarith⟩⟩
  · rename_i h
    have hlt : i - 2 ^ s.val < 256 := by omega
    have h1 := abs_le.1 (hB _ hlt)
    have h2 := abs_le.1 (hB i hi)
    have hsub := Words.toInt_sub (a := v[i - 2 ^ s.val]) (b := v[i]) (by linarith) (by linarith)
    have hk : 2 ^ (8 - s.val) - 1 - i / 2 ^ (s.val + 1) ≠ 0 := by
      have hb := block_lt s.isLt hi
      have : 2 ^ (8 - s.val) = 2 * 2 ^ (7 - s.val) := by
        rw [← pow_succ', show 7 - s.val + 1 = 8 - s.val by omega]
      have := Nat.one_le_two_pow (n := 7 - s.val)
      omega
    obtain ⟨hc, hb⟩ := mulMontgomery_neg_zetas (k := ⟨_, inverseZeta_lt s hi⟩) hk
      (v[i - 2 ^ s.val] - v[i])
    rw [classes_of_lt _ hi, classes_of_lt _ hlt, getElem_inverseLayer_of_le s v hi h]
    refine ⟨?_, hb.trans hlow⟩
    rw [hc, cls, hsub, Int.cast_sub]
    rfl

end Layer

/-! ## All layers -/

/-- **The layers of the transform** refine the remainders of a polynomial. -/
theorem forwardFrom_spec (a : ℕ → Zq) (s : ℕ) (hs : s ≤ 8) (v : Vector Int32 256) {B : ℤ}
    (hB : ∀ (i : ℕ) (_ : i < 256), |v[i].toInt| ≤ B) (hroom : B + s * 6285312 ≤ 2147483647)
    (hv : ∀ i < 256, classes v i = remainder a s i) :
    ∀ (i : ℕ) (hi : i < 256), classes (forwardFrom s hs v) i = remainder a 0 i ∧
      |(forwardFrom s hs v)[i].toInt| ≤ B + s * 6285312 := by
  induction s generalizing v B with
  | zero =>
    intro i hi
    exact ⟨hv i hi, by simpa [forwardFrom] using hB i hi⟩
  | succ s ih =>
    have hroom' : B + 6285312 + s * 6285312 ≤ 2147483647 := by push_cast at hroom; linarith
    have hlayer := forwardLayer_spec ⟨s, hs⟩ v hB (by linarith [s.cast_nonneg (α := ℤ)])
    intro i hi
    have h := ih (by omega) (forwardLayer ⟨s, hs⟩ v) (fun i hi => (hlayer i hi).2) hroom'
      (fun j hj => by
        rw [(hlayer j hj).1, forward_congr hv (by exact hs) hj, forward_remainder a (by exact hs) hj]) i hi
    refine ⟨h.1, h.2.trans_eq ?_⟩
    push_cast
    ring

/-- **The layers of the inverse**; sums of `2 ^ s` numbers below `q` fit. -/
theorem inverseUpTo_spec (s : ℕ) (hs : s ≤ 8) (v : Vector Int32 256)
    (hB : ∀ (i : ℕ) (_ : i < 256), |v[i].toInt| ≤ 8380416) :
    ∀ (i : ℕ) (hi : i < 256), classes (inverseUpTo s hs v) i = inverses (classes v) s i ∧
      |(inverseUpTo s hs v)[i].toInt| ≤ 2 ^ s * 8380416 := by
  induction s with
  | zero =>
    intro i hi
    exact ⟨rfl, by simpa [inverseUpTo] using hB i hi⟩
  | succ s ih =>
    have hpow : (2 : ℤ) ^ s ≤ 2 ^ 7 := pow_le_pow_right₀ (by norm_num) (by omega)
    have hpos : (1 : ℤ) ≤ 2 ^ s := one_le_pow₀ (by norm_num)
    have h := ih (by omega)
    intro i hi
    obtain ⟨hc, hb⟩ := inverseLayer_spec ⟨s, hs⟩ (inverseUpTo s (by omega) v)
      (fun j hj => (h j hj).2) (by linarith) (by linarith) i hi
    refine ⟨?_, hb.trans_eq (by ring)⟩
    change classes (inverseLayer ⟨s, hs⟩ (inverseUpTo s _ v)) i = inverse s (inverses (classes v) s) i
    rw [hc]
    exact inverse_congr (fun j hj => (h j hj).1) (by exact hs) hi

end LatticeSignature.Transform
