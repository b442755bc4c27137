import LatticeSignature.Rounding
import LatticeSignature.Residue
import Mathlib.Tactic.Linarith
import Mathlib.Tactic.Ring

/-!
# Machine words as integers

Sums, products and shifts of 32- and 64-bit words are exact as long as they fit, and the masks made
from sign bits select by sign.

* `toInt_add`, `toInt_sub`, `toInt_mul`, `toInt_neg`: word arithmetic that fits.
* `toInt_shiftRight`, `toInt_and_fifteen`: division and remainder by powers of two.
* `signMask_and`, `signBit_eq`, `nonzeroBit_eq`: what masks select.
-/

namespace LatticeSignature.Words

theorem toInt_q : Params.q.toInt = 8380417 := rfl

/-! ## Arithmetic that fits -/

section Exact

variable {a b : Int32}

theorem toInt_add (h : -2147483648 ≤ a.toInt + b.toInt) (h' : a.toInt + b.toInt < 2147483648) :
    (a + b).toInt = a.toInt + b.toInt := by
  rw [Int32.toInt_add]
  exact Int.bmod_eq_of_le (by norm_num; omega) (by norm_num; omega)

theorem toInt_sub (h : -2147483648 ≤ a.toInt - b.toInt) (h' : a.toInt - b.toInt < 2147483648) :
    (a - b).toInt = a.toInt - b.toInt := by
  rw [Int32.toInt_sub]
  exact Int.bmod_eq_of_le (by norm_num; omega) (by norm_num; omega)

theorem toInt_mul (h : -2147483648 ≤ a.toInt * b.toInt) (h' : a.toInt * b.toInt < 2147483648) :
    (a * b).toInt = a.toInt * b.toInt := by
  rw [Int32.toInt_mul]
  exact Int.bmod_eq_of_le (by norm_num; omega) (by norm_num; omega)

theorem toInt_neg (h : -2147483648 < a.toInt) : (-a).toInt = -a.toInt := by
  have := a.toInt_lt
  rw [Int32.toInt_neg]
  exact Int.bmod_eq_of_le (by norm_num; omega) (by norm_num; omega)

end Exact

theorem abs_toInt_le (a : Int32) : |a.toInt| ≤ 2147483648 := by
  have h := a.le_toInt
  have h' := a.toInt_lt
  norm_num at h h'
  exact abs_le.2 ⟨h, h'.le⟩

theorem toInt_mul_toInt64 (a b : Int32) : (a.toInt64 * b.toInt64).toInt = a.toInt * b.toInt := by
  have ha := a.le_toInt
  have ha' := a.toInt_lt
  have hb := b.le_toInt
  have hb' := b.toInt_lt
  have hlo : -4611686018427387904 ≤ a.toInt * b.toInt := by norm_num at *; nlinarith
  have hhi : a.toInt * b.toInt ≤ 4611686018427387904 := by norm_num at *; nlinarith
  rw [Int64.toInt_mul, Int32.toInt_toInt64, Int32.toInt_toInt64]
  exact Int.bmod_eq_of_le (by norm_num; omega) (by norm_num; omega)

/-! ## Shifts -/

theorem toInt_shiftRight (a k : Int32) (n : ℕ) (h : (k.toBitVec.smod 32).toNat = n) :
    (a >>> k).toInt = a.toInt / 2 ^ n := by
  change (BitVec.sshiftRight' a.toBitVec (k.toBitVec.smod 32)).toInt = _
  rw [BitVec.toInt_sshiftRight', h, Int.shiftRight_eq_div_pow, Int32.toInt_toBitVec]
  norm_num

theorem toInt64_shiftRight (a k : Int64) (n : ℕ) (h : (k.toBitVec.smod 64).toNat = n) :
    (a >>> k).toInt = a.toInt / 2 ^ n := by
  change (BitVec.sshiftRight' a.toBitVec (k.toBitVec.smod 64)).toInt = _
  rw [BitVec.toInt_sshiftRight', h, Int.shiftRight_eq_div_pow, Int64.toInt_toBitVec]
  norm_num

theorem toInt_shiftLeft_thirteen {a : Int32} (h : 0 ≤ a.toInt) (h' : a.toInt ≤ 1023) :
    (a <<< 13).toInt = a.toInt * 8192 := by
  have ha := BitVec.toInt_eq_toNat_cond a.toBitVec
  have hlt := a.toBitVec.isLt
  rw [Int32.toInt_toBitVec] at ha
  have hn : (a <<< 13).toBitVec = a.toBitVec <<< 13 := rfl
  rw [← Int32.toInt_toBitVec, hn, BitVec.toInt_shiftLeft, Nat.shiftLeft_eq]
  push_cast
  rw [Int.bmod_eq_of_le] <;> split at ha <;> norm_num <;> omega

/-! ## Masks -/

/-- The sign bit, spread over a word, selects a mask for negative numbers. -/
theorem signMask_and (a m : Int32) : (a >>> 31) &&& m = if a.toInt < 0 then m else 0 := by
  have ha := a.le_toInt
  have ha' := a.toInt_lt
  have h := toInt_shiftRight a 31 31 (by decide)
  split
  · rw [show a >>> 31 = -1 from Int32.toInt_inj.1 (by
      rw [h, show (-1 : Int32).toInt = -1 from rfl]; norm_num at *; omega)]
    exact Int32.neg_one_and
  · rw [show a >>> 31 = 0 from Int32.toInt_inj.1 (by
      rw [h, show (0 : Int32).toInt = 0 from rfl]; norm_num at *; omega)]
    exact Int32.zero_and

theorem signBit_eq (a : Int32) : Rounding.signBit a = if a.toInt < 0 then 1 else 0 := by
  have h := BitVec.toInt_eq_toNat_cond a.toBitVec
  rw [Int32.toInt_toBitVec] at h
  unfold Rounding.signBit
  apply UInt32.toNat_inj.1
  rw [UInt32.toNat_shiftRight, show a.toUInt32.toNat = a.toBitVec.toNat from rfl,
    show (31 : UInt32).toNat % 32 = 31 from rfl, Nat.shiftRight_eq_div_pow]
  split at h <;> split
  · omega
  · rw [show (0 : UInt32).toNat = 0 from rfl]; omega
  · rw [show (1 : UInt32).toNat = 1 from rfl]; omega
  · omega

theorem nonzeroBit_eq (a : Int32) : Rounding.nonzeroBit a = if a = 0 then 0 else 1 := by
  unfold Rounding.nonzeroBit
  rw [signBit_eq]
  have hor : (a ||| -a).toInt < 0 ↔ a.toInt < 0 ∨ (-a).toInt < 0 := by
    have h := BitVec.msb_or (x := a.toBitVec) (y := (-a).toBitVec)
    rw [BitVec.msb_eq_toInt, BitVec.msb_eq_toInt, BitVec.msb_eq_toInt, ← Int32.toBitVec_or,
      Int32.toInt_toBitVec, Int32.toInt_toBitVec, Int32.toInt_toBitVec, Bool.eq_iff_iff,
      Bool.or_eq_true, decide_eq_true_iff, decide_eq_true_iff, decide_eq_true_iff] at h
    exact h
  have ha := a.le_toInt
  by_cases h0 : a = 0
  · subst h0
    decide
  · have hne : a.toInt ≠ 0 := fun h => h0 (Int32.toInt_inj.1 h)
    rw [if_neg h0, if_pos]
    rw [hor]
    by_cases hmin : a.toInt = -2147483648
    · omega
    · rw [toInt_neg (by norm_num at *; omega)]
      omega

theorem and_one_zero_or_one {n : ℕ} (a : BitVec n) : a &&& 1 = 0 ∨ a &&& 1 = 1 := by
  rw [show a &&& 1 = _ from BitVec.and_one_eq_setWidth_ofBool_getLsbD]
  cases a.getLsbD 0
  · exact Or.inl (BitVec.setWidth_zero ..)
  · exact Or.inr (BitVec.setWidth_ofNat_one_eq_ofNat_one_of_lt Nat.one_pos)

theorem toInt_and_fifteen (a : Int32) : (a &&& 15).toInt = a.toInt % 16 := by
  have hn : (a &&& 15).toBitVec.toNat = a.toBitVec.toNat % 16 := by
    rw [Int32.toBitVec_and, BitVec.toNat_and]
    exact Nat.and_two_pow_sub_one_eq_mod _ 4
  have h1 := BitVec.toInt_eq_toNat_cond (a &&& 15).toBitVec
  have h2 := BitVec.toInt_eq_toNat_cond a.toBitVec
  rw [Int32.toInt_toBitVec] at h1 h2
  rw [hn] at h1
  rw [h1, h2]
  split <;> split <;> omega

end LatticeSignature.Words
