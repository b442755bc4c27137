import LatticeSignature.Proofs.Rq

/-!
# Layers of butterflies over the residue classes

Before layer `s` of the transform, the numbers are cut into blocks of `2 ^ (s + 1)`, each of which
holds the remainder of the polynomial modulo `X^(2^(s + 1)) - r` for a constant `r` of its own. A
layer splits every block into the remainders modulo `X^(2^s) - z` and `X^(2^s) + z`, where
`z^2 = r`. After layer 0 the remainders are values at the roots.

* `level`, `remainder`: the constants, and the numbers between two layers.
* `forward`, `inverse`: one layer in each direction.
* **`forward_remainder`**: a layer goes from one remainder to the next.
* **`forward_inverse`**: an inverse layer is undone by its layer, up to a factor 2.
* **`sum_inverses`**: the values of what eight inverse layers return.
-/

namespace LatticeSignature.Butterfly

open Finset

/-! ## Powers of the root of unity -/

/-- The power that block `b` of layer `s` uses. -/
def power (s b : ℕ) : Zq := Rq.generator ^ Rq.bitReverse (2 ^ (7 - s) + b)

/-- The power that block `b` of the inverse layer `s` uses. -/
def inversePower (s b : ℕ) : Zq := -Rq.generator ^ Rq.bitReverse (2 ^ (8 - s) - 1 - b)

/-- The constant of block `b` when blocks hold `2 ^ s` numbers. -/
def level (s b : ℕ) : Zq := Rq.root (b * 2 ^ s) ^ 2 ^ s

/-- The exponents in the constants of the two halves of a block, and in the two powers. -/
theorem exponents : ∀ s < 8, ∀ b < 2 ^ (7 - s),
    (2 * Rq.bitReverse (2 * b * 2 ^ s) + 1) * 2 ^ s = Rq.bitReverse (2 ^ (7 - s) + b) ∧
    (2 * Rq.bitReverse ((2 * b + 1) * 2 ^ s) + 1) * 2 ^ s =
      Rq.bitReverse (2 ^ (7 - s) + b) + 256 ∧
    Rq.bitReverse (2 ^ (7 - s) + b) + Rq.bitReverse (2 ^ (8 - s) - 1 - b) = 256 := by
  decide +kernel

variable {s b : ℕ}

theorem level_even (hs : s < 8) (hb : b < 2 ^ (7 - s)) : level s (2 * b) = power s b := by
  unfold level power Rq.root
  rw [← pow_mul, (exponents s hs b hb).1]

theorem level_odd (hs : s < 8) (hb : b < 2 ^ (7 - s)) : level s (2 * b + 1) = -power s b := by
  unfold level power Rq.root
  rw [← pow_mul, (exponents s hs b hb).2.1, pow_add, Rq.generator_pow, mul_neg_one]

theorem power_sq (hs : s < 8) (hb : b < 2 ^ (7 - s)) : power s b ^ 2 = level (s + 1) b := by
  rw [← level_even hs hb]
  unfold level
  rw [← pow_mul, ← pow_succ, show 2 * b * 2 ^ s = b * 2 ^ (s + 1) by ring]

theorem power_mul_inversePower (hs : s < 8) (hb : b < 2 ^ (7 - s)) :
    power s b * inversePower s b = 1 := by
  unfold power inversePower
  rw [mul_neg, ← pow_add, (exponents s hs b hb).2.2, Rq.generator_pow, neg_neg]

theorem level_zero (k : ℕ) : level 0 k = Rq.root k := by
  unfold level
  rw [pow_zero, mul_one, pow_one]

/-! ## Remainders and layers -/

/-- Number `i` of the remainders modulo `X^(2^s)` less the constants of level `s`. -/
def remainder (a : ℕ → Zq) (s i : ℕ) : Zq :=
  ∑ m ∈ range (2 ^ (8 - s)), a (i % 2 ^ s + m * 2 ^ s) * level s (i / 2 ^ s) ^ m

/-- Layer `s` of the transform. -/
def forward (s : ℕ) (v : ℕ → Zq) (i : ℕ) : Zq :=
  if i % 2 ^ (s + 1) < 2 ^ s then v i + power s (i / 2 ^ (s + 1)) * v (i + 2 ^ s)
  else v (i - 2 ^ s) - power s (i / 2 ^ (s + 1)) * v i

/-- Layer `s` of the inverse. -/
def inverse (s : ℕ) (v : ℕ → Zq) (i : ℕ) : Zq :=
  if i % 2 ^ (s + 1) < 2 ^ s then v i + v (i + 2 ^ s)
  else inversePower s (i / 2 ^ (s + 1)) * (v (i - 2 ^ s) - v i)

theorem low_position {D i : ℕ} (h : i % (2 * D) < D) :
    i / D = 2 * (i / (2 * D)) ∧ i % D = i % (2 * D) ∧ (i + D) % (2 * D) = i % (2 * D) + D ∧
      (i + D) / (2 * D) = i / (2 * D) := by
  have hD : 0 < D := by omega
  have hi := Nat.div_add_mod i (2 * D)
  generalize i / (2 * D) = b at *
  generalize i % (2 * D) = j at *
  have e : i = D * (2 * b) + j := by rw [← hi]; ring
  have e' : i + D = 2 * D * b + (j + D) := by rw [← hi]; ring
  refine ⟨?_, ?_, ?_, ?_⟩
  · rw [e, Nat.mul_add_div hD, Nat.div_eq_of_lt h, add_zero]
  · rw [e, Nat.mul_add_mod, Nat.mod_eq_of_lt h]
  · rw [e', Nat.mul_add_mod, Nat.mod_eq_of_lt (by omega)]
  · rw [e', Nat.mul_add_div (by omega), Nat.div_eq_of_lt (by omega), add_zero]

theorem high_position {D i : ℕ} (hD : 0 < D) (h : ¬ i % (2 * D) < D) :
    i / D = 2 * (i / (2 * D)) + 1 ∧ i % D + D = i % (2 * D) ∧ D ≤ i ∧
      (i - D) % (2 * D) = i % D ∧ (i - D) / (2 * D) = i / (2 * D) := by
  have hj := Nat.mod_lt i (show 0 < 2 * D by omega)
  have hi := Nat.div_add_mod i (2 * D)
  generalize i / (2 * D) = b at *
  obtain ⟨j, hj'⟩ : ∃ j, i % (2 * D) = j + D := ⟨i % (2 * D) - D, by omega⟩
  rw [hj'] at hi hj ⊢
  have e : i = D * (2 * b + 1) + j := by rw [← hi]; ring
  have e' : i - D = 2 * D * b + j := by omega
  have hm : i % D = j := by rw [e, Nat.mul_add_mod, Nat.mod_eq_of_lt (by omega)]
  refine ⟨?_, by rw [hm], by rw [← hi]; omega, ?_, ?_⟩
  · rw [e, Nat.mul_add_div hD, Nat.div_eq_of_lt (by omega), add_zero]
  · rw [hm, e', Nat.mul_add_mod, Nat.mod_eq_of_lt (by omega)]
  · rw [e', Nat.mul_add_div (by omega), Nat.div_eq_of_lt (by omega), add_zero]

theorem block_lt {i : ℕ} (hs : s < 8) (hi : i < 256) : i / 2 ^ (s + 1) < 2 ^ (7 - s) := by
  rw [Nat.div_lt_iff_lt_mul (by positivity), ← pow_add, show 7 - s + (s + 1) = 8 by omega]
  exact hi

theorem sum_range_two_mul (f : ℕ → Zq) (n : ℕ) :
    ∑ m ∈ range (2 * n), f m = ∑ m ∈ range n, f (2 * m) + ∑ m ∈ range n, f (2 * m + 1) := by
  induction n with
  | zero => simp
  | succ n ih =>
    rw [show 2 * (n + 1) = 2 * n + 1 + 1 by ring, sum_range_succ, sum_range_succ, ih,
      sum_range_succ, sum_range_succ]
    ring

/-- **A layer of the transform refines the remainders.** -/
theorem forward_remainder (a : ℕ → Zq) (hs : s < 8) {i : ℕ} (hi : i < 256) :
    forward s (remainder a (s + 1)) i = remainder a s i := by
  have hb := block_lt hs hi
  have hsq := power_sq hs hb
  have heven := level_even hs hb
  have hodd := level_odd hs hb
  unfold forward remainder
  rw [show 2 ^ (s + 1) = 2 * 2 ^ s by ring] at *
  rw [show 8 - s = 7 - s + 1 by omega, pow_succ', sum_range_two_mul, show 8 - (s + 1) = 7 - s by omega,
    ← hsq]
  have hD : 0 < 2 ^ s := by positivity
  generalize 2 ^ s = D at *
  by_cases h : i % (2 * D) < D
  · obtain ⟨hdiv, hmod, hmod', hdiv'⟩ := low_position h
    rw [if_pos h, hdiv, hmod, hmod', hdiv', heven, ← hsq, mul_sum]
    congr 1
    · refine sum_congr rfl fun m _ => ?_
      rw [← pow_mul, show 2 * m * D = m * (2 * D) by ring]
    · refine sum_congr rfl fun m _ => ?_
      rw [← pow_mul, pow_succ, show i % (2 * D) + (2 * m + 1) * D = i % (2 * D) + D + m * (2 * D) by ring]
      ring
  · obtain ⟨hdiv, hmod, -, hmod', hdiv'⟩ := high_position hD h
    rw [if_neg h, hdiv, hmod', hdiv', hodd, ← hsq, mul_sum, sub_eq_add_neg, ← sum_neg_distrib, ← hmod]
    congr 1
    · refine sum_congr rfl fun m _ => ?_
      rw [← pow_mul, (even_two_mul m).neg_pow, show 2 * m * D = m * (2 * D) by ring]
    · refine sum_congr rfl fun m _ => ?_
      rw [← pow_mul, (odd_two_mul_add_one m).neg_pow, pow_succ,
        show i % D + (2 * m + 1) * D = i % D + D + m * (2 * D) by ring]
      ring

/-- **A layer undoes the inverse layer**, up to a factor 2. -/
theorem forward_inverse (v : ℕ → Zq) (hs : s < 8) {i : ℕ} (hi : i < 256) :
    forward s (inverse s v) i = 2 * v i := by
  have hz := power_mul_inversePower hs (block_lt hs hi)
  unfold forward inverse
  rw [show 2 ^ (s + 1) = 2 * 2 ^ s by ring] at *
  have hD : 0 < 2 ^ s := by positivity
  generalize 2 ^ s = D at *
  by_cases h : i % (2 * D) < D
  · obtain ⟨-, -, hmod, hdiv⟩ := low_position h
    rw [if_pos h, if_pos h, if_neg (by omega), hdiv, Nat.add_sub_cancel]
    linear_combination (v i - v (i + D)) * hz
  · obtain ⟨-, hmod, hle, hmod', -⟩ := high_position hD h
    have hlt := Nat.mod_lt i (show 0 < 2 * D by omega)
    rw [if_neg h, if_pos (by omega), if_neg h, Nat.sub_add_cancel hle]
    linear_combination -(v (i - D) - v i) * hz

/-! ## All layers -/

theorem partner_lt {i : ℕ} (hs : s < 8) (hi : i < 256) (h : i % 2 ^ (s + 1) < 2 ^ s) :
    i + 2 ^ s < 256 := by
  have hb := block_lt hs hi
  have hpow : 2 ^ (7 - s) * (2 * 2 ^ s) = 256 := by
    rw [← pow_succ', ← pow_add, show 7 - s + (s + 1) = 8 by omega]
    norm_num
  rw [show 2 ^ (s + 1) = 2 * 2 ^ s by ring] at *
  generalize 2 ^ s = D at *
  have := Nat.div_add_mod i (2 * D)
  have := Nat.mul_le_mul_right (2 * D) (Nat.succ_le_of_lt hb)
  rw [Nat.succ_mul, hpow, mul_comm] at this
  omega

theorem forward_congr {v w : ℕ → Zq} (h : ∀ i < 256, v i = w i) (hs : s < 8) {i : ℕ} (hi : i < 256) :
    forward s v i = forward s w i := by
  unfold forward
  split
  · rename_i hlow
    rw [h i hi, h _ (partner_lt hs hi hlow)]
  · rw [h i hi, h _ (by omega)]

theorem inverse_congr {v w : ℕ → Zq} (h : ∀ i < 256, v i = w i) (hs : s < 8) {i : ℕ} (hi : i < 256) :
    inverse s v i = inverse s w i := by
  unfold inverse
  split
  · rename_i hlow
    rw [h i hi, h _ (partner_lt hs hi hlow)]
  · rw [h i hi, h _ (by omega)]

theorem forward_mul (c : Zq) (v : ℕ → Zq) (i : ℕ) :
    forward s (fun j => c * v j) i = c * forward s v i := by
  unfold forward
  split <;> ring

/-- The inverse layers 0 up to `s - 1`. -/
def inverses (v : ℕ → Zq) : ℕ → ℕ → Zq
  | 0 => v
  | s + 1 => inverse s (inverses v s)

/-- The remainders of what the inverse layers return are, up to a power of 2, what they passed
through. -/
theorem remainder_inverses (v : ℕ → Zq) (d : ℕ) (hd : d ≤ 8) {i : ℕ} (hi : i < 256) :
    remainder (inverses v 8) (8 - d) i = 2 ^ d * inverses v (8 - d) i := by
  induction d generalizing i with
  | zero =>
    unfold remainder
    simp [Nat.mod_eq_of_lt hi]
  | succ d ih =>
    obtain ⟨s, hs⟩ : ∃ s, 8 - d = s + 1 := ⟨7 - d, by omega⟩
    have hs8 : s < 8 := by omega
    rw [hs] at ih
    rw [show 8 - (d + 1) = s by omega, ← forward_remainder _ hs8 hi,
      forward_congr (fun j hj => ih (by omega) hj) hs8 hi, forward_mul]
    change 2 ^ d * forward s (inverse s (inverses v s)) i = _
    rw [forward_inverse _ hs8 hi]
    ring

theorem remainder_zero (a : ℕ → Zq) (k : ℕ) :
    remainder a 0 k = ∑ i : Fin 256, a i * Rq.root k ^ i.val := by
  unfold remainder
  rw [Fin.sum_univ_eq_sum_range fun i => a i * Rq.root k ^ i]
  refine sum_congr rfl fun m _ => ?_
  rw [pow_zero, Nat.mod_one, zero_add, mul_one, Nat.div_one, level_zero]

theorem remainder_eight (a : ℕ → Zq) {i : ℕ} (hi : i < 256) : remainder a 8 i = a i := by
  unfold remainder
  simp [Nat.mod_eq_of_lt hi]

/-- **The inverse layers return 256 times the polynomial with the given values.** -/
theorem sum_inverses (v : ℕ → Zq) {k : ℕ} (hk : k < 256) :
    ∑ i : Fin 256, inverses v 8 i * Rq.root k ^ i.val = 256 * v k := by
  rw [← remainder_zero]
  have h := remainder_inverses v 8 le_rfl hk
  rw [show 8 - 8 = 0 from rfl] at h
  rw [h, show inverses v 0 = v from rfl]
  norm_num

end LatticeSignature.Butterfly
