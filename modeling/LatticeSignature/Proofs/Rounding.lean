import LatticeSignature.Proofs.Words

/-!
# Rounding and hints over the integers

The mask arithmetic of the two splittings and of the hints computes the functions that their
definitions by cases describe, and the hint of a small change undoes it.

* `highBits`, `lowBits`: the bucket of a representative, and its offset from the centre.
* `HintNeeded`, `corrected`: when a hint is set, and what it does to the bucket.
* `toInt_decompose`, `makeHint_eq`, `toInt_useHint`, `toInt_power2Round`: the word functions.
* **`corrected_emod`**: a verifier that is off by a small amount finds the bucket of the signer.
-/

namespace LatticeSignature.Rounding

/-! ## Definitions by cases -/

/-- The bucket of a representative in `[0, q)`: the nearest multiple of `2 · gamma2`, the topmost one
being folded into the lowest. -/
def highBits (r : ℤ) : ℤ := (r + 261887) / 523776 % 16

/-- The distance from the centre of the bucket; in the folded part it is taken from `q`. -/
def lowBits (r : ℤ) : ℤ := if 8118528 < r then r - 8380417 else r - highBits r * 523776

/-- The low part has left its bucket. At the lower edge only bucket 0 holds on to it. -/
def HintNeeded (low high : ℤ) : Prop :=
  261888 < low ∨ low < -261888 ∨ low = -261888 ∧ high ≠ 0

instance (low high : ℤ) : Decidable (HintNeeded low high) :=
  inferInstanceAs (Decidable (_ ∨ _ ∨ _ ∧ _))

/-- The bucket, or with a hint its neighbour on the side of the low part. -/
def corrected (r : ℤ) (hint : Prop) [Decidable hint] : ℤ :=
  if hint then
    if 0 < lowBits r then (highBits r + 1) % 16 else (highBits r - 1) % 16
  else highBits r

theorem corrected_congr {r : ℤ} {hint hint' : Prop} {_ : Decidable hint} {_ : Decidable hint'}
    (h : hint ↔ hint') : corrected r hint = corrected r hint' := by
  unfold corrected
  simp only [h]

theorem highBits_range (r : ℤ) : 0 ≤ highBits r ∧ highBits r ≤ 15 := by
  unfold highBits
  omega

theorem corrected_range (r : ℤ) (hint : Prop) [Decidable hint] :
    0 ≤ corrected r hint ∧ corrected r hint ≤ 15 := by
  have h := highBits_range r
  unfold corrected
  split
  · split <;> omega
  · exact h

theorem corrected_eq_iff {r : ℤ} {hint hint' : Prop} {_ : Decidable hint} {_ : Decidable hint'} :
    corrected r hint = corrected r hint' ↔ (hint ↔ hint') := by
  refine ⟨fun heq => ?_, corrected_congr⟩
  have hrange := highBits_range r
  unfold corrected at heq
  by_cases h : hint <;> by_cases h' : hint'
  · exact iff_of_true h h'
  · rw [if_pos h, if_neg h'] at heq
    split at heq <;> omega
  · rw [if_neg h, if_pos h'] at heq
    split at heq <;> omega
  · exact iff_of_false h h'

theorem lowBits_range {r : ℤ} (h : 0 ≤ r) (h' : r ≤ 8380416) :
    -261888 ≤ lowBits r ∧ lowBits r ≤ 261888 := by
  unfold lowBits highBits
  split <;> omega

theorem highBits_mul_add_lowBits {r : ℤ} (h : 0 ≤ r) (h' : r ≤ 8380416) :
    highBits r * 523776 + lowBits r = r ∨ highBits r * 523776 + lowBits r = r - 8380417 := by
  unfold lowBits
  split
  · right
    have : highBits r = 0 := by unfold highBits; omega
    omega
  · left
    omega

theorem bits_of_bucket {high low : ℤ} (h : 0 ≤ high) (h' : high ≤ 15) (hlow : -261888 < low)
    (hlow' : low ≤ 261888) :
    highBits (high * 523776 + low) = high ∧ lowBits (high * 523776 + low) = low := by
  have hdiv : (high * 523776 + low + 261887) / 523776 = high := by omega
  have hhigh : highBits (high * 523776 + low) = high := by
    rw [highBits, hdiv]
    omega
  refine ⟨hhigh, ?_⟩
  rw [lowBits, if_neg (by omega), hhigh]
  omega

theorem bits_of_folded {r : ℤ} (h : 8118528 < r) (h' : r ≤ 8380416) :
    highBits r = 0 ∧ lowBits r = r - 8380417 := by
  have hdiv : (r + 261887) / 523776 = 16 := by omega
  refine ⟨?_, if_pos h⟩
  rw [highBits, hdiv]
  rfl

/-! ## Reconciliation -/

/-- **A hint undoes a small change.** The signer is in bucket `high`; the verifier sees the centre of
that bucket plus `low`, which is less than a bucket away. -/
theorem corrected_emod {high low : ℤ} (h : 0 ≤ high) (h' : high ≤ 15) (hlow : -523656 < low)
    (hlow' : low < 523656) :
    corrected ((high * 523776 + low) % 8380417) (HintNeeded low high) = high := by
  unfold corrected
  by_cases habove : 261888 < low
  · rw [if_pos (show HintNeeded low high from Or.inl habove)]
    by_cases htop : high = 15
    · obtain ⟨h1, h2⟩ := bits_of_folded (r := (high * 523776 + low) % 8380417) (by omega) (by omega)
      rw [h1, h2, if_neg (by omega), htop]
      rfl
    · obtain ⟨h1, h2⟩ := @bits_of_bucket (high + 1) (low - 523776) (by omega)
        (by omega) (by omega) (by omega)
      rw [show (high * 523776 + low) % 8380417 = (high + 1) * 523776 + (low - 523776) by omega, h1,
        h2, if_neg (by omega)]
      omega
  by_cases hbelow : low < -261888 ∨ low = -261888 ∧ high ≠ 0
  · rw [if_pos (show HintNeeded low high from Or.inr hbelow)]
    by_cases hbottom : high = 0
    · obtain ⟨h1, h2⟩ := @bits_of_bucket (15) (low + 523777) (by omega) (by omega)
        (by omega) (by omega)
      rw [show (high * 523776 + low) % 8380417 = 15 * 523776 + (low + 523777) by omega, h1, h2,
        if_pos (by omega), hbottom]
      rfl
    · obtain ⟨h1, h2⟩ := @bits_of_bucket (high - 1) (low + 523776) (by omega)
        (by omega) (by omega) (by omega)
      rw [show (high * 523776 + low) % 8380417 = (high - 1) * 523776 + (low + 523776) by omega, h1,
        h2, if_pos (by omega)]
      omega
  · rw [if_neg (show ¬HintNeeded low high from not_or.2 ⟨habove, hbelow⟩)]
    by_cases hfold : high * 523776 + low < 0
    · rw [(bits_of_folded (r := (high * 523776 + low) % 8380417) (by omega) (by omega)).1]
      omega
    · rw [Int.emod_eq_of_lt (by omega) (by omega)]
      exact (bits_of_bucket h h' (by omega) (by omega)).1

theorem corrected_add {w u v : ℤ} (h : 0 ≤ w) (h' : w ≤ 8380416) (hu : |lowBits w + u| < 261768)
    (hv : |v| < 261888) :
    corrected ((w + u + v) % 8380417) (HintNeeded (lowBits w + u + v) (highBits w)) = highBits w := by
  have hu' := abs_lt.1 hu
  have hv' := abs_lt.1 hv
  have hrange := highBits_range w
  have hmod : (w + u + v) % 8380417 =
      (highBits w * 523776 + (lowBits w + u + v)) % 8380417 := by
    rcases highBits_mul_add_lowBits h h' with hw | hw
    · rw [← add_assoc, ← add_assoc, hw]
    · rw [← add_assoc, ← add_assoc, hw]
      omega
  rw [hmod]
  exact corrected_emod hrange.1 hrange.2 (by linarith) (by linarith)

/-! ## The word functions -/

theorem toInt_gamma2 : Params.gamma2.toInt = 261888 := rfl

section Words

variable {a : Int32}

/-- Multiplying and shifting rounds to the nearest multiple of `2 · gamma2`. -/
theorem scaled_div_eq {r : ℤ} (h : 0 ≤ r) (h' : r ≤ 8380416) :
    ((r + 127) / 128 * 1025 + 2097152) / 4194304 = (r + 261887) / 523776 := by
  obtain ⟨s, hs⟩ : ∃ s, (r + 127) / 128 = s := ⟨_, rfl⟩
  obtain ⟨k, hk⟩ : ∃ k, (r + 261887) / 523776 = k := ⟨_, rfl⟩
  -- the bucket boundaries are multiples of 128, so that the scaled number keeps to them
  have h1 : 4092 * k - 2045 ≤ s := by omega
  have h2 : s ≤ 4092 * k + 2046 := by omega
  rw [hs, hk]
  omega

theorem toInt_decompose_high (h : 0 ≤ a.toInt) (h' : a.toInt ≤ 8380416) :
    (decompose a).high.toInt = highBits a.toInt := by
  have h127 : (127 : Int32).toInt = 127 := rfl
  have h1025 : (1025 : Int32).toInt = 1025 := rfl
  have hhalf : (2097152 : Int32).toInt = 2097152 := rfl
  have hscaled : ((a + 127) >>> 7).toInt = (a.toInt + 127) / 128 := by
    rw [Words.toInt_shiftRight _ _ 7 (by decide), Words.toInt_add (by omega) (by omega), h127]
    norm_num
  have hmul : ((a + 127) >>> 7 * 1025).toInt = (a.toInt + 127) / 128 * 1025 := by
    rw [Words.toInt_mul (by rw [hscaled, h1025]; omega) (by rw [hscaled, h1025]; omega), hscaled,
      h1025]
  have hadd : ((a + 127) >>> 7 * 1025 + 2097152).toInt =
      (a.toInt + 127) / 128 * 1025 + 2097152 := by
    rw [Words.toInt_add (by rw [hmul, hhalf]; omega) (by rw [hmul, hhalf]; omega), hmul, hhalf]
  change (((a + 127) >>> 7 * 1025 + 2097152) >>> 22 &&& 15).toInt = _
  rw [Words.toInt_and_fifteen, Words.toInt_shiftRight _ _ 22 (by decide), hadd]
  norm_num
  rw [scaled_div_eq h h', highBits]

theorem toInt_decompose_low (h : 0 ≤ a.toInt) (h' : a.toInt ≤ 8380416) :
    (decompose a).low.toInt = lowBits a.toInt := by
  have htwo : (2 : Int32).toInt = 2 := rfl
  have hedge : (4190208 : Int32).toInt = 4190208 := rfl
  have hhigh := toInt_decompose_high h h'
  have hrange := highBits_range a.toInt
  have hdouble : ((decompose a).high * 2).toInt = highBits a.toInt * 2 := by
    rw [Words.toInt_mul (by rw [hhigh, htwo]; omega) (by rw [hhigh, htwo]; omega), hhigh, htwo]
  have hcentre : ((decompose a).high * 2 * Params.gamma2).toInt = highBits a.toInt * 523776 := by
    rw [Words.toInt_mul (by rw [hdouble, toInt_gamma2]; omega)
      (by rw [hdouble, toInt_gamma2]; omega), hdouble, toInt_gamma2]
    ring
  let low := a - (decompose a).high * 2 * Params.gamma2
  have hlow : low.toInt = a.toInt - highBits a.toInt * 523776 := by
    rw [Words.toInt_sub (by rw [hcentre]; omega) (by rw [hcentre]; omega), hcentre]
  have hover : (4190208 - low).toInt = 4190208 - (a.toInt - highBits a.toInt * 523776) := by
    rw [Words.toInt_sub (by rw [hlow, hedge]; omega) (by rw [hlow, hedge]; omega), hlow, hedge]
  change (low - ((4190208 - low) >>> 31 &&& Params.q)).toInt = _
  rw [Words.signMask_and, hover]
  clear_value low
  -- the low part exceeds half of `q` in the folded part only
  by_cases hc : 8118528 < a.toInt
  · obtain ⟨h0, h1⟩ := bits_of_folded hc h'
    rw [h0] at hlow ⊢
    rw [h1, if_pos (by linarith), Words.toInt_sub (by rw [hlow, Words.toInt_q]; linarith)
      (by rw [hlow, Words.toInt_q]; linarith), hlow, Words.toInt_q]
    ring
  · have hle := lowBits_range h h'
    rw [lowBits, if_neg hc] at hle ⊢
    rw [if_neg (by linarith), Int32.sub_zero, hlow]

/-- **The high and low parts of a canonical representative.** -/
theorem toInt_decompose (h : 0 ≤ a.toInt) (h' : a.toInt ≤ 8380416) :
    (decompose a).high.toInt = highBits a.toInt ∧ (decompose a).low.toInt = lowBits a.toInt :=
  ⟨toInt_decompose_high h h', toInt_decompose_low h h'⟩

/-- **A hint is set when the low part has left its bucket.** -/
theorem makeHint_eq {low high : Int32} (h : -2147221759 ≤ low.toInt) (h' : low.toInt ≤ 2147221759) :
    makeHint low high = if HintNeeded low.toInt high.toInt then 1 else 0 := by
  have habove : (Params.gamma2 - low).toInt = 261888 - low.toInt := by
    rw [Words.toInt_sub (by rw [toInt_gamma2]; omega) (by rw [toInt_gamma2]; omega), toInt_gamma2]
  have hbelow : (low + Params.gamma2).toInt = low.toInt + 261888 := by
    rw [Words.toInt_add (by rw [toInt_gamma2]; omega) (by rw [toInt_gamma2]; omega), toInt_gamma2]
  have hedge : low + Params.gamma2 = 0 ↔ low.toInt = -261888 := by
    rw [← Int32.toInt_inj, hbelow, show (0 : Int32).toInt = 0 from rfl]
    omega
  have hhigh : high = 0 ↔ high.toInt = 0 := by
    rw [← Int32.toInt_inj]
    rfl
  unfold makeHint
  simp only [Words.signBit_eq, Words.nonzeroBit_eq, habove, hbelow, hedge, hhigh]
  by_cases h1 : 261888 < low.toInt
  · have hn : HintNeeded low.toInt high.toInt := Or.inl h1
    rw [if_pos hn, if_pos (by omega), if_neg (by omega), if_neg (by omega)]
    split <;> rfl
  by_cases h2 : low.toInt < -261888
  · have hn : HintNeeded low.toInt high.toInt := Or.inr (Or.inl h2)
    rw [if_pos hn, if_neg (by omega), if_pos (by omega), if_neg (by omega)]
    split <;> rfl
  rw [if_neg (by omega), if_neg (by omega)]
  by_cases h3 : low.toInt = -261888 ∧ high.toInt ≠ 0
  · have hn : HintNeeded low.toInt high.toInt := Or.inr (Or.inr h3)
    rw [if_pos hn, if_pos h3.1, if_neg h3.2]
    rfl
  · have hn : ¬HintNeeded low.toInt high.toInt := not_or.2 ⟨h1, not_or.2 ⟨h2, h3⟩⟩
    rw [if_neg hn]
    by_cases h4 : low.toInt = -261888
    · rw [if_pos h4, if_pos (not_not.1 fun h0 => h3 ⟨h4, h0⟩)]
      rfl
    · rw [if_neg h4]
      split <;> rfl

/-- **A hint moves the high part to the neighbouring bucket.** -/
theorem toInt_useHint (hint : Int32) (h : 0 ≤ a.toInt) (h' : a.toInt ≤ 8380416) :
    (useHint a hint).toInt = corrected a.toInt (hint ≠ 0) := by
  obtain ⟨hhigh, hlow⟩ := toInt_decompose h h'
  have hrange := highBits_range a.toInt
  have hlrange := lowBits_range h h'
  have hone : (1 : Int32).toInt = 1 := rfl
  have hneg : (-(decompose a).low).toInt = -lowBits a.toInt := by
    rw [Words.toInt_neg (by omega), hlow]
  have hup : (((decompose a).high + 1) &&& 15).toInt = (highBits a.toInt + 1) % 16 := by
    rw [Words.toInt_and_fifteen, Words.toInt_add (by omega) (by omega), hhigh, hone]
  have hdown : (((decompose a).high - 1) &&& 15).toInt = (highBits a.toInt - 1) % 16 := by
    rw [Words.toInt_and_fifteen, Words.toInt_sub (by omega) (by omega), hhigh, hone]
  unfold useHint corrected
  simp only [Words.signBit_eq, Words.nonzeroBit_eq, hneg]
  have hall : ~~~(-(1 : UInt32).toInt32) = 0 := rfl
  have hones : -(1 : UInt32).toInt32 = -1 := rfl
  have hnone : ~~~(-(0 : UInt32).toInt32) = -1 := rfl
  have hzeros : -(0 : UInt32).toInt32 = 0 := rfl
  by_cases hh : hint = 0
  · rw [if_pos hh, if_neg (not_not.2 hh), hnone, hzeros]
    simp [hhigh]
  · rw [if_neg hh, if_pos hh, hall, hones]
    by_cases hl : 0 < lowBits a.toInt
    · rw [if_pos (by omega), if_pos hl, hall, hones]
      simpa using hup
    · rw [if_neg (by omega), if_neg hl, hnone, hzeros]
      simpa using hdown

/-- **Splitting off 13 bits** leaves a low part in `(-4096, 4096]`. -/
theorem toInt_power2Round (h : 0 ≤ a.toInt) (h' : a.toInt ≤ 8380416) :
    (power2Round a).high.toInt * 8192 + (power2Round a).low.toInt = a.toInt ∧
      (0 ≤ (power2Round a).high.toInt ∧ (power2Round a).high.toInt ≤ 1023) ∧
      -4095 ≤ (power2Round a).low.toInt ∧ (power2Round a).low.toInt ≤ 4096 := by
  have h4096 : (4096 : Int32).toInt = 4096 := rfl
  have hone : (1 : Int32).toInt = 1 := rfl
  have hadd : (a + 4096).toInt = a.toInt + 4096 := by
    rw [Words.toInt_add (by omega) (by omega), h4096]
  have hsub : (a + 4096 - 1).toInt = a.toInt + 4095 := by
    rw [Words.toInt_sub (by omega) (by omega), hadd, hone]
    ring
  have hhigh : (power2Round a).high.toInt = (a.toInt + 4095) / 8192 := by
    change ((a + 4096 - 1) >>> 13).toInt = _
    rw [Words.toInt_shiftRight _ _ 13 (by decide), hsub]
    norm_num
  have hshift : ((power2Round a).high <<< 13).toInt = (a.toInt + 4095) / 8192 * 8192 := by
    rw [Words.toInt_shiftLeft_thirteen (by omega) (by omega), hhigh]
  have hlow : (power2Round a).low.toInt = a.toInt - (a.toInt + 4095) / 8192 * 8192 := by
    change (a - (power2Round a).high <<< 13).toInt = _
    rw [Words.toInt_sub (by rw [hshift]; omega) (by rw [hshift]; omega), hshift]
  rw [hhigh, hlow]
  omega

end Words

end LatticeSignature.Rounding
