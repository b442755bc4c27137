import LatticeSignature.Proofs.Checked.Poly
import LatticeSignature.Proofs.KeyPair
import LatticeSignature.Proofs.Response

/-!
# Checked moves

The vectors that key generation, the two moves of a signing round and verification compute. Sums
and products are not reduced on the way unless the protocol does so. The ranges of what goes in are
those of secrets, masks, challenges and public vectors that are read from any bytes.

* **`checkedPublicVector_eq`**: key generation.
* **`checkedCommitment_eq`**, **`SigningKey.checkedRespond_eq`**: a signing round.
* **`checkedRecoverHigh_eq`**: verification.
-/

namespace LatticeSignature

open Checked Params

/-! ## Key generation and commitments -/

/-- The product of the matrix and a vector. -/
def Matrix.checkedApply (A : Matrix) (v : PolyVec .plain 7) : Checked (PolyVec .plain 8) := do
  let v ← v.checkedTransform
  let w ← A.checkedMul v
  let w ← w.checkedReduce
  w.checkedInverseTransform

def checkedPublicVector (A : Matrix) (s1 : PolyVec .plain 7) (s2 : PolyVec .plain 8) :
    Checked (PolyVec.Parts 8) := do
  let t ← A.checkedApply s1
  let t ← t.checkedAdd s2
  let t ← t.checkedLift
  t.checkedPower2Round

def checkedCommitment (A : Matrix) (y : PolyVec .plain 7) : Checked (PolyVec.Parts 8) := do
  let w ← A.checkedApply y
  let w ← w.checkedLift
  w.checkedDecompose

section Matrices

variable {A : Matrix} {v : PolyVec .plain 7} {B : ℤ}

theorem Matrix.checkedApply_eq (hA : A.Within 0 8380416) (hv : v.Within (-B) B) (hB : B ≤ 2080440319) :
    A.checkedApply v = .ok (A.mul v.transform).reduce.inverseTransform := by
  have ht := PolyVec.within_transform hv hB
  have hm : (A.mul v.transform).Within (-58662912) 58662912 := fun i => (Matrix.element_mul hA hv hB i).2
  have hr := PolyVec.within_reduce hm (by norm_num)
  rw [Matrix.checkedApply, bind_of_eq (PolyVec.checkedTransform_eq hv hB),
    bind_of_eq (Matrix.checkedMul_eq hA ht (by linarith)),
    bind_of_eq (PolyVec.checkedReduce_eq hm (by norm_num))]
  exact PolyVec.checkedInverseTransform_eq (hr.mono (by norm_num) (by norm_num))

theorem Matrix.within_apply (hA : A.Within 0 8380416) (hv : v.Within (-B) B) (hB : B ≤ 2080440319) :
    (A.mul v.transform).reduce.inverseTransform.Within (-4211197) 4211197 :=
  fun i => (Matrix.element_mul_transform hA hv hB i).2

theorem checkedPublicVector_eq {s1 : PolyVec .plain 7} {s2 : PolyVec .plain 8} (hA : A.Within 0 8380416)
    (h1 : s1.Within (-2) 2) (h2 : s2.Within (-2) 2) :
    checkedPublicVector A s1 s2 = .ok (publicVector A s1 s2) := by
  have ht := Matrix.within_apply hA h1 (by norm_num)
  have hsum := PolyVec.within_add ht h2 (by norm_num) (by norm_num)
  rw [checkedPublicVector, bind_of_eq (Matrix.checkedApply_eq hA h1 (by norm_num)),
    bind_of_eq (PolyVec.checkedAdd_eq ht h2 (by norm_num) (by norm_num)),
    bind_of_eq (PolyVec.checkedLift_eq hsum (by norm_num))]
  exact PolyVec.checkedPower2Round_eq (PolyVec.within_lift hsum (by norm_num) (by norm_num))

theorem checkedCommitment_eq (hA : A.Within 0 8380416) (hv : v.Within (-B) B) (hB : B ≤ 2080440319) :
    checkedCommitment A v = .ok (commitment A v) := by
  have hw := Matrix.within_apply hA hv hB
  rw [checkedCommitment, bind_of_eq (Matrix.checkedApply_eq hA hv hB),
    bind_of_eq (PolyVec.checkedLift_eq hw (by norm_num))]
  exact PolyVec.checkedDecompose_eq (PolyVec.within_lift hw (by norm_num) (by norm_num))

end Matrices

/-! ## Responses -/

/-- The product of a challenge and a vector. -/
def PolyVec.checkedTimes {n : ℕ} (v : PolyVec .transformed n) (c : Poly .transformed) :
    Checked (PolyVec .plain n) := do
  let w ← v.checkedScale c
  w.checkedInverseTransform

def SigningKey.checkedRespond (k : SigningKey) (c : Poly .transformed) (y : PolyVec .plain 7)
    (w : PolyVec.Parts 8) : Checked (Option Response) := do
  let z ← k.s1.checkedTimes c
  let z ← z.checkedAdd y
  let z ← z.checkedReduce
  let bound ← Checked.sub gamma1 beta
  let zBelow ← z.checkedNormBelow bound
  let cs2 ← k.s2.checkedTimes c
  let low ← w.low.checkedSub cs2
  let low ← low.checkedReduce
  let bound ← Checked.sub gamma2 beta
  let lowBelow ← low.checkedNormBelow bound
  let ct0 ← k.t0.checkedTimes c
  let ct0 ← ct0.checkedReduce
  let ct0Below ← ct0.checkedNormBelow gamma2
  let sum ← low.checkedAdd ct0
  let (hint, ones) ← sum.checkedMakeHint w.high
  return if zBelow && lowBelow && ct0Below && ones ≤ omega then some ⟨z, hint⟩ else none

section Respond

variable {n : ℕ} {c : Poly .plain}

theorem PolyVec.checkedTimes_eq {v : PolyVec .plain n} (hc : c.Within (-1) 1)
    (hv : v.Within (-8380416) 8380416) :
    v.transform.checkedTimes c.transform = .ok (v.transform.scale c.transform).inverseTransform := by
  have h1 := (Poly.element_transform hc (by norm_num)).2
  have h2 := PolyVec.within_transform hv (by norm_num)
  rw [PolyVec.checkedTimes, bind_of_eq (PolyVec.checkedScale_eq _ _)]
  exact PolyVec.checkedInverseTransform_eq (PolyVec.within_scale h1 h2 (by norm_num))

theorem PolyVec.within_times {v : PolyVec .plain n} (hc : c.Within (-1) 1)
    (hv : v.Within (-8380416) 8380416) :
    (v.transform.scale c.transform).inverseTransform.Within (-4211197) 4211197 :=
  fun i => (PolyVec.element_scale_transform hc hv i).2

theorem checked_responseBound : Checked.sub gamma1 beta = .ok (gamma1 - beta) := rfl

theorem checked_lowBound : Checked.sub gamma2 beta = .ok (gamma2 - beta) := rfl

/-- **The answer to a challenge** is computed without a fault, in range or not. -/
theorem SigningKey.checkedRespond_eq {A : Matrix} {s1 y : PolyVec .plain 7} {s2 t0 : PolyVec .plain 8}
    {w : PolyVec.Parts 8} (h1 : s1.Within (-5) 2) (h2 : s2.Within (-5) 2) (h0 : t0.Within (-4095) 4096)
    (hy : y.Within (-524287) 524288) (hc : c.Within (-1) 1) (hw : w.low.Within (-261888) 261888) :
    SigningKey.checkedRespond ⟨A, s1.transform, s2.transform, t0.transform⟩ c.transform y w =
      .ok (SigningKey.respond ⟨A, s1.transform, s2.transform, t0.transform⟩ c.transform y w) := by
  have h1' := h1.mono (by norm_num : (-8380416 : ℤ) ≤ -5) (by norm_num : (2 : ℤ) ≤ 8380416)
  have h2' := h2.mono (by norm_num : (-8380416 : ℤ) ≤ -5) (by norm_num : (2 : ℤ) ≤ 8380416)
  have h0' := h0.mono (by norm_num : (-8380416 : ℤ) ≤ -4095) (by norm_num : (4096 : ℤ) ≤ 8380416)
  have hcs1 := PolyVec.within_times hc h1'
  have hcs2 := PolyVec.within_times hc h2'
  have hct0 := PolyVec.within_times hc h0'
  have hadd := PolyVec.within_add hcs1 hy (by norm_num) (by norm_num)
  have hsub := PolyVec.within_sub hw hcs2 (by norm_num) (by norm_num)
  have hz := PolyVec.within_reduce hadd (by norm_num)
  have hlow := PolyVec.within_reduce hsub (by norm_num)
  have hmissing := PolyVec.within_reduce hct0 (by norm_num)
  have hsum := PolyVec.within_add hlow hmissing (by norm_num) (by norm_num)
  unfold checkedRespond respond
  simp only
  -- the response
  rw [bind_of_eq (PolyVec.checkedTimes_eq hc h1'),
    bind_of_eq (PolyVec.checkedAdd_eq hcs1 hy (by norm_num) (by norm_num)),
    bind_of_eq (PolyVec.checkedReduce_eq hadd (by norm_num)), bind_of_eq checked_responseBound,
    bind_of_eq (PolyVec.checkedNormBelow_eq (hz.mono (by norm_num) (by norm_num)) (by decide))]
  -- the low bits
  rw [bind_of_eq (PolyVec.checkedTimes_eq hc h2'),
    bind_of_eq (PolyVec.checkedSub_eq hw hcs2 (by norm_num) (by norm_num)),
    bind_of_eq (PolyVec.checkedReduce_eq hsub (by norm_num)), bind_of_eq checked_lowBound,
    bind_of_eq (PolyVec.checkedNormBelow_eq (hlow.mono (by norm_num) (by norm_num)) (by decide))]
  -- what the public key lacks
  rw [bind_of_eq (PolyVec.checkedTimes_eq hc h0'),
    bind_of_eq (PolyVec.checkedReduce_eq hct0 (by norm_num)),
    bind_of_eq (PolyVec.checkedNormBelow_eq (hmissing.mono (by norm_num) (by norm_num)) (by decide))]
  -- the hint
  rw [bind_of_eq (PolyVec.checkedAdd_eq hlow hmissing (by norm_num) (by norm_num)),
    bind_of_eq (PolyVec.checkedMakeHint_eq (hsum.mono (by norm_num) (by norm_num)) w.high)]
  rfl

theorem Round.Acceptable.inRange {r : Round} (hacc : r.Acceptable) (hash : ByteString n) :
    SignatureParts.InRange ⟨hash, r.centredResponse, r.hint⟩ := by
  have hcard := @SignatureParts.total_hint_eq_card n ⟨hash, r.centredResponse, r.hint⟩ r.hint_zero_or_one
  exact ⟨hacc.within_centredResponse, r.hint_zero_or_one,
    (hcard.symm.trans r.total_hint).trans_le hacc.hintCount_le⟩

end Respond

/-! ## Verification -/

def checkedRecoverHigh (A : Matrix) (c : Poly .transformed) (t1 : PolyVec .plain 8)
    (z : PolyVec .plain 7) (hint : PolyVec .plain 8) : Checked (PolyVec .plain 8) := do
  let z ← z.checkedTransform
  let az ← A.checkedMul z
  let t1 ← t1.checkedShiftLeft
  let t1 ← t1.checkedTransform
  let ct1 ← t1.checkedScale c
  let w ← az.checkedSub ct1
  let w ← w.checkedReduce
  let w ← w.checkedInverseTransform
  let w ← w.checkedLift
  w.checkedUseHint hint

section Recover

variable {A : Matrix} {c : Poly .plain} {t1 : PolyVec .plain 8} {z : PolyVec .plain 7}

/-- **The verifier's vector**, whatever the hint is. -/
theorem checkedRecoverHigh_eq (hA : A.Within 0 8380416) (hc : c.Within (-1) 1) (ht : t1.Within 0 1023)
    (hz : z.Within (-524288) 524288) (hint : PolyVec .plain 8) :
    checkedRecoverHigh A c.transform t1 z hint = .ok (recoverHigh A c.transform t1 z hint) := by
  have hc' := (Poly.element_transform hc (by norm_num)).2
  have hz' := PolyVec.within_transform hz (by norm_num)
  have haz : (A.mul z.transform).Within (-58662912) 58662912 :=
    fun i => (Matrix.element_mul hA hz (by norm_num) i).2
  have hshift := (PolyVec.within_shiftLeft ht).mono (by norm_num : (-8380416 : ℤ) ≤ 0) le_rfl
  have ht' := PolyVec.within_transform hshift (by norm_num)
  have hct1 := PolyVec.within_scale hc' ht' (by norm_num)
  have hsub := PolyVec.within_sub haz hct1 (by norm_num) (by norm_num)
  have hreduce := (PolyVec.within_reduce hsub (by norm_num)).mono (by norm_num : (-8380416 : ℤ) ≤ -6283009)
    (by norm_num : (6283008 : ℤ) ≤ 8380416)
  have hinverse := PolyVec.within_inverseTransform hreduce
  have hlift := PolyVec.within_lift hinverse (by norm_num) (by norm_num)
  rw [checkedRecoverHigh, bind_of_eq (PolyVec.checkedTransform_eq hz (by norm_num)),
    bind_of_eq (Matrix.checkedMul_eq hA hz' (by norm_num)),
    bind_of_eq (PolyVec.checkedShiftLeft_eq ht),
    bind_of_eq (PolyVec.checkedTransform_eq hshift (by norm_num)),
    bind_of_eq (PolyVec.checkedScale_eq _ _),
    bind_of_eq (PolyVec.checkedSub_eq haz hct1 (by norm_num) (by norm_num)),
    bind_of_eq (PolyVec.checkedReduce_eq hsub (by norm_num)),
    bind_of_eq (PolyVec.checkedInverseTransform_eq hreduce),
    bind_of_eq (PolyVec.checkedLift_eq hinverse (by norm_num))]
  exact PolyVec.checkedUseHint_eq hlift hint

end Recover

end LatticeSignature
