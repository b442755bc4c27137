import LatticeSignature.Proofs.Checked.Basic
import LatticeSignature.Proofs.Residue
import LatticeSignature.Proofs.Rounding

/-!
# Checked arithmetic on residues

The functions on representatives, with every sum, difference, product and narrowing checked. None of
them faults on operands in the range that it is made for. The factor of a Montgomery reduction is
computed modulo `2 ^ 32` on purpose, and so are the negations whose sign bits are looked at.

* **`Residue.checkedMulMontgomery_eq`**: products of any two words.
* `Residue.checkedReduce_eq`, `Residue.checkedLift_eq`, `Residue.checkedMagnitude_eq`.
* `Rounding.checkedPower2Round_eq`, …, `Rounding.checkedUseHint_eq`: the two splittings and the hints.
-/

namespace LatticeSignature

open Checked Params

namespace Residue

def checkedMontgomery (a : Int64) : Checked Int32 := do
  let m ← mul64 (a.toInt32 * qInverse).toInt64 q.toInt64
  let d ← sub64 a m
  narrow (d >>> 32)

def checkedMulMontgomery (a b : Int32) : Checked Int32 := do
  let m ← mul64 a.toInt64 b.toInt64
  checkedMontgomery m

def checkedReduce (a : Int32) : Checked Int32 := do
  let t ← add a 4194304
  let m ← mul (t >>> 23) q
  sub a m

def checkedLift (a : Int32) : Checked Int32 := add a ((a >>> 31) &&& q)

def checkedMagnitude (a : Int32) : Checked Int32 := do
  let m ← mul 2 a
  sub a ((a >>> 31) &&& m)

theorem checkedMontgomery_eq {a : Int64} (h : -9205375228383854592 ≤ a.toInt)
    (h' : a.toInt < 9205375228383854592) : checkedMontgomery a = .ok (montgomery a) := by
  let t : Int32 := a.toInt32 * qInverse
  have hlo : -2147483648 ≤ t.toInt := t.le_toInt
  have hhi : t.toInt < 2147483648 := t.toInt_lt
  have hsub := toInt_sub_mul_q h h' t
  have hshift := Words.toInt64_shiftRight (a - t.toInt64 * q.toInt64) 32 32 (by decide)
  rw [hsub] at hshift
  norm_num at hshift
  have hdiff : sub64 a (t.toInt64 * q.toInt64) = .ok (a - t.toInt64 * q.toInt64) :=
    word64_eq (by rw [hsub, Words.toInt_mul_toInt64, Words.toInt_q])
  unfold checkedMontgomery
  rw [bind_of_eq (mul64_eq t q), bind_of_eq hdiff]
  exact narrow_eq (by rw [hshift]; omega) (by rw [hshift]; omega)

/-- **A Montgomery product never faults**: the high half of 64 bits has 32 of them. -/
theorem checkedMulMontgomery_eq (a b : Int32) : checkedMulMontgomery a b = .ok (mulMontgomery a b) := by
  obtain ⟨hlo, hhi⟩ := abs_le.1 (abs_toInt_mul_le (Words.abs_toInt_le a) (Words.abs_toInt_le b))
  have hm := Words.toInt_mul_toInt64 a b
  unfold checkedMulMontgomery
  rw [bind_of_eq (mul64_eq a b)]
  exact checkedMontgomery_eq (by rw [hm]; omega) (by rw [hm]; omega)

theorem checkedReduce_eq {a : Int32} (h : a.toInt ≤ 2143289343) :
    checkedReduce a = .ok (reduce a) := by
  have hlo := a.le_toInt
  norm_num at hlo
  have hc : (4194304 : Int32).toInt = 4194304 := rfl
  obtain ⟨x, hx⟩ : ∃ x, a.toInt = x := ⟨_, rfl⟩
  rw [hx] at h hlo
  obtain ⟨hadd, vadd⟩ := add_eq hx hc (by omega) (by omega)
  have vshift : ((a + 4194304) >>> 23).toInt = (x + 4194304) / 8388608 := by
    rw [Words.toInt_shiftRight _ _ 23 (by decide), vadd]
    norm_num
  obtain ⟨hmul, vmul⟩ := mul_eq vshift Words.toInt_q (by omega) (by omega)
  obtain ⟨hsub, -⟩ := sub_eq hx vmul (by omega) (by omega)
  unfold checkedReduce
  rw [bind_of_eq hadd, bind_of_eq hmul]
  exact hsub

theorem toInt_signMask_and (a m : Int32) :
    ((a >>> 31) &&& m).toInt = if a.toInt < 0 then m.toInt else 0 := by
  rw [Words.signMask_and]
  split <;> rfl

theorem checkedLift_eq {a : Int32} (h : a.toInt < 2139103231) : checkedLift a = .ok (lift a) := by
  have hlo := a.le_toInt
  norm_num at hlo
  have hmask := toInt_signMask_and a q
  rw [Words.toInt_q] at hmask
  obtain ⟨x, hx⟩ : ∃ x, a.toInt = x := ⟨_, rfl⟩
  rw [hx] at h hlo hmask
  refine (add_eq hx hmask ?_ ?_).1 <;> split <;> omega

theorem checkedMagnitude_eq {a : Int32} (h : -1073741824 ≤ a.toInt) (h' : a.toInt ≤ 1073741823) :
    checkedMagnitude a = .ok (magnitude a) := by
  have htwo : (2 : Int32).toInt = 2 := rfl
  have hmask := toInt_signMask_and a (2 * a)
  obtain ⟨x, hx⟩ : ∃ x, a.toInt = x := ⟨_, rfl⟩
  rw [hx] at h h' hmask
  obtain ⟨hmul, vmul⟩ := mul_eq htwo hx (by omega) (by omega)
  rw [vmul] at hmask
  unfold checkedMagnitude
  rw [bind_of_eq hmul]
  refine (sub_eq hx hmask ?_ ?_).1 <;> split <;> omega

end Residue

namespace Rounding

def checkedPower2Round (a : Int32) : Checked HighLow := do
  let t ← add a 4096
  let t ← sub t 1
  let m ← shl (t >>> 13) 13
  let low ← sub a m
  return ⟨t >>> 13, low⟩

def checkedDecompose (a : Int32) : Checked HighLow := do
  let t ← add a 127
  let m ← mul (t >>> 7) 1025
  let m ← add m 2097152
  let centre ← mul ((m >>> 22) &&& 15) 2
  let centre ← mul centre gamma2
  let low ← sub a centre
  let excess ← sub 4190208 low
  let low ← sub low ((excess >>> 31) &&& q)
  return ⟨(m >>> 22) &&& 15, low⟩

def checkedMakeHint (low high : Int32) : Checked Int32 := do
  let above ← sub gamma2 low
  let below ← add low gamma2
  let diff ← add low gamma2
  return ((signBit above ||| signBit below ||| ((1 ^^^ nonzeroBit diff) &&& nonzeroBit high)) &&&
    1).toInt32

def checkedUseHint (a hint : Int32) : Checked Int32 := do
  let parts ← checkedDecompose a
  let up ← add parts.high 1
  let down ← sub parts.high 1
  let hintMask ← neg (nonzeroBit hint).toInt32
  let positiveMask ← neg (signBit (-parts.low)).toInt32
  return (parts.high &&& ~~~hintMask) ||| ((up &&& 15) &&& (hintMask &&& positiveMask)) |||
    ((down &&& 15) &&& (hintMask &&& ~~~positiveMask))

section Words

variable {a : Int32}

theorem checkedPower2Round_eq (h : 0 ≤ a.toInt) (h' : a.toInt ≤ 8380416) :
    checkedPower2Round a = .ok (power2Round a) := by
  have hc : (4096 : Int32).toInt = 4096 := rfl
  have hone : (1 : Int32).toInt = 1 := rfl
  obtain ⟨x, hx⟩ : ∃ x, a.toInt = x := ⟨_, rfl⟩
  rw [hx] at h h'
  obtain ⟨hadd, vadd⟩ := add_eq hx hc (by omega) (by omega)
  obtain ⟨hsub, vsub⟩ := sub_eq vadd hone (by omega) (by omega)
  have vhigh : ((a + 4096 - 1) >>> 13).toInt = (x + 4096 - 1) / 8192 := by
    rw [Words.toInt_shiftRight _ _ 13 (by decide), vsub]
    norm_num
  obtain ⟨hshl, vshl⟩ := shl_thirteen_eq vhigh (by omega) (by omega)
  obtain ⟨hlow, -⟩ := sub_eq hx vshl (by omega) (by omega)
  unfold checkedPower2Round
  rw [bind_of_eq hadd, bind_of_eq hsub, bind_of_eq hshl, bind_of_eq hlow]
  rfl

theorem checkedDecompose_eq (h : 0 ≤ a.toInt) (h' : a.toInt ≤ 8380416) :
    checkedDecompose a = .ok (decompose a) := by
  have vhigh : (((a + 127) >>> 7 * 1025 + 2097152) >>> 22 &&& 15).toInt = highBits a.toInt :=
    toInt_decompose_high h h'
  obtain ⟨hlo, hhi⟩ := highBits_range a.toInt
  have hbucket : -261888 ≤ a.toInt - highBits a.toInt * 523776 := by
    unfold highBits
    omega
  obtain ⟨y, hy⟩ : ∃ y, highBits a.toInt = y := ⟨_, rfl⟩
  rw [hy] at vhigh hlo hhi hbucket
  obtain ⟨x, hx⟩ : ∃ x, a.toInt = x := ⟨_, rfl⟩
  rw [hx] at h h' hbucket
  obtain ⟨hadd, vadd⟩ := add_eq hx (show (127 : Int32).toInt = 127 from rfl) (by omega) (by omega)
  have vscaled : ((a + 127) >>> 7).toInt = (x + 127) / 128 := by
    rw [Words.toInt_shiftRight _ _ 7 (by decide), vadd]
    norm_num
  obtain ⟨hmul, vmul⟩ := mul_eq vscaled (show (1025 : Int32).toInt = 1025 from rfl) (by omega) (by omega)
  obtain ⟨hround, -⟩ := add_eq vmul (show (2097152 : Int32).toInt = 2097152 from rfl) (by omega)
    (by omega)
  obtain ⟨hdouble, vdouble⟩ := mul_eq vhigh (show (2 : Int32).toInt = 2 from rfl) (by linarith) (by linarith)
  obtain ⟨hcentre, vcentre⟩ := mul_eq vdouble toInt_gamma2 (by linarith) (by linarith)
  obtain ⟨hlow, vlow⟩ := sub_eq hx vcentre (by linarith) (by linarith)
  obtain ⟨hover, vover⟩ := sub_eq (show (4190208 : Int32).toInt = 4190208 from rfl) vlow
    (by linarith) (by linarith)
  have vfold := Residue.toInt_signMask_and
    ((4190208 : Int32) - (a - ((((a + 127) >>> 7 * 1025 + 2097152) >>> 22) &&& 15) * 2 * gamma2)) q
  rw [vover, Words.toInt_q] at vfold
  obtain ⟨hfold, -⟩ := sub_eq vlow vfold (by split <;> linarith) (by split <;> linarith)
  unfold checkedDecompose
  rw [bind_of_eq hadd, bind_of_eq hmul, bind_of_eq hround, bind_of_eq hdouble, bind_of_eq hcentre,
    bind_of_eq hlow, bind_of_eq hover, bind_of_eq hfold]
  rfl

theorem checkedMakeHint_eq {low : Int32} (h : -2147221759 ≤ low.toInt) (h' : low.toInt ≤ 2147221759)
    (high : Int32) : checkedMakeHint low high = .ok (makeHint low high) := by
  obtain ⟨x, hx⟩ : ∃ x, low.toInt = x := ⟨_, rfl⟩
  rw [hx] at h h'
  obtain ⟨habove, -⟩ := sub_eq toInt_gamma2 hx (by omega) (by omega)
  obtain ⟨hbelow, -⟩ := add_eq hx toInt_gamma2 (by omega) (by omega)
  unfold checkedMakeHint
  rw [bind_of_eq habove, bind_of_eq hbelow, bind_of_eq hbelow]
  rfl

theorem signBit_zero_or_one (c : Int32) : signBit c = 0 ∨ signBit c = 1 := by
  rw [Words.signBit_eq]
  split
  · exact Or.inr rfl
  · exact Or.inl rfl

theorem neg_signBit (c : Int32) : neg (signBit c).toInt32 = .ok (-(signBit c).toInt32) := by
  rcases signBit_zero_or_one c with h | h <;> rw [h] <;> exact neg_eq (by decide)

theorem checkedUseHint_eq (h : 0 ≤ a.toInt) (h' : a.toInt ≤ 8380416) (hint : Int32) :
    checkedUseHint a hint = .ok (useHint a hint) := by
  have hone : (1 : Int32).toInt = 1 := rfl
  have vhigh := toInt_decompose_high h h'
  obtain ⟨hlo, hhi⟩ := highBits_range a.toInt
  obtain ⟨y, hy⟩ : ∃ y, highBits a.toInt = y := ⟨_, rfl⟩
  rw [hy] at vhigh hlo hhi
  obtain ⟨hup, -⟩ := add_eq vhigh hone (by omega) (by omega)
  obtain ⟨hdown, -⟩ := sub_eq vhigh hone (by omega) (by omega)
  have hhint : neg (nonzeroBit hint).toInt32 = .ok (-(nonzeroBit hint).toInt32) := neg_signBit _
  unfold checkedUseHint
  rw [bind_of_eq (checkedDecompose_eq h h'), bind_of_eq hup, bind_of_eq hdown, bind_of_eq hhint,
    bind_of_eq (neg_signBit _)]
  rfl

end Words

end Rounding

end LatticeSignature
