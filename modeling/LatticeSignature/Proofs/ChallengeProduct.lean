import LatticeSignature.Proofs.Challenge
import LatticeSignature.Proofs.Evaluation
import LatticeSignature.Proofs.Layout
import LatticeSignature.Proofs.Protocol
import LatticeSignature.Proofs.Response

/-!
# Products with a challenge

A challenge consists of 60 signs, so that a coefficient of its product with a polynomial is a sum of 60
coefficients of that polynomial, up to signs. The low part of the public vector has coefficients of 13
bits, whatever bytes the secret key is made of; hence a signing round never fails the test on its product
with the challenge.

* **`Poly.abs_negacyclic_le`**: a coefficient of a product is bounded by the sum of the absolute values
  of one factor and the largest absolute value of the other.
* `Poly.sum_abs_challenge`: those of a challenge add up to 60.
* `Poly.valMinAbs_challenge_mul`: a product with a short polynomial is the one over the integers.
* `SigningKey.respondByThree`: the answer of a round that leaves out the test on `c t0`.
* **`missing_test_always_passes`**.
-/

namespace LatticeSignature

namespace Poly

variable {p r c : Poly .plain}

/-- A coefficient `X ^ i` of one factor meets one coefficient of the other. -/
theorem exists_abs_row_eq (p r : Poly .plain) (k i : Fin 256) :
    ∃ j, |∑ j : Fin 256, if i.val + j.val = k.val then (p.number i).toInt * (r.number j).toInt
      else if i.val + j.val = k.val + 256 then -((p.number i).toInt * (r.number j).toInt)
      else 0| = |(p.number i).toInt * (r.number j).toInt| := by
  by_cases hik : i.val ≤ k.val
  · let m : Fin 256 := ⟨k.val - i.val, by omega⟩
    have hm : i.val + m.val = k.val := Nat.add_sub_cancel' hik
    refine ⟨m, ?_⟩
    rw [Finset.sum_eq_single m, if_pos hm]
    · intro j _ hj
      have hne : j.val ≠ m.val := fun h => hj (Fin.ext h)
      rw [if_neg (by omega), if_neg (by omega)]
    · exact fun h => absurd (Finset.mem_univ m) h
  · let m : Fin 256 := ⟨k.val + 256 - i.val, by omega⟩
    have hm : i.val + m.val = k.val + 256 := Nat.add_sub_cancel' (by omega)
    refine ⟨m, ?_⟩
    rw [Finset.sum_eq_single m, if_neg (by omega), if_pos hm, abs_neg]
    · intro j _ hj
      have hne : j.val ≠ m.val := fun h => hj (Fin.ext h)
      rw [if_neg (by omega), if_neg (by omega)]
    · exact fun h => absurd (Finset.mem_univ m) h

theorem abs_negacyclic_le {B : ℤ} (hr : ∀ j, |(r.number j).toInt| ≤ B) (k : Fin 256) :
    |p.negacyclic r k| ≤ (∑ i, |(p.number i).toInt|) * B := by
  rw [Finset.sum_mul]
  refine (Finset.abs_sum_le_sum_abs _ _).trans (Finset.sum_le_sum fun i _ => ?_)
  obtain ⟨j, hj⟩ := exists_abs_row_eq p r k i
  rw [hj, abs_mul]
  exact mul_le_mul_of_nonneg_left (hr j) (abs_nonneg _)

section Challenge

variable {O : Oracle} {hash : Bytes} {B : ℤ}

theorem sum_abs_challenge (h : challenge O hash = some c) : ∑ i, |(c.number i).toInt| = 60 := by
  have habs : ∀ i, |(c.number i).toInt| = if c.number i ≠ 0 then 1 else 0 := by
    intro i
    rcases zero_or_sign_of_challenge h i with hi | hi | hi <;> rw [hi] <;> decide
  calc ∑ i, |(c.number i).toInt| = ∑ i, if c.number i ≠ 0 then 1 else 0 :=
        Finset.sum_congr rfl fun i _ => habs i
    _ = (c.weight : ℤ) := by rw [weight_eq_card, Finset.natCast_card_filter]
    _ = 60 := by rw [weight_challenge h, Nat.cast_ofNat]

theorem abs_negacyclic_challenge_le (hc : challenge O hash = some c)
    (hr : ∀ j, |(r.number j).toInt| ≤ B) (j : Fin 256) : |c.negacyclic r j| ≤ 60 * B := by
  have hle := abs_negacyclic_le (p := c) hr j
  rwa [sum_abs_challenge hc] at hle

/-- **Products with short polynomials are those over the integers**: they are too small for another
representative. -/
theorem valMinAbs_challenge_mul (hc : challenge O hash = some c) (hr : ∀ j, |(r.number j).toInt| ≤ B)
    (hB : B ≤ 69836) (j : Fin 256) :
    ((c.element * r.element).coeff j).valMinAbs = c.negacyclic r j := by
  rw [← cast_negacyclic]
  exact valMinAbs_intCast ((abs_negacyclic_challenge_le hc hr j).trans (by linarith))

theorem normBelow_challenge_mul (hc : challenge O hash = some c) (hr : ∀ j, |(r.number j).toInt| ≤ B)
    (hB : B ≤ 69836) : (c.element * r.element).NormBelow (60 * B + 1) := by
  intro j
  rw [valMinAbs_challenge_mul hc hr hB]
  exact Int.lt_add_one_of_le (abs_negacyclic_challenge_le hc hr j)

end Challenge

end Poly

/-! ## The low part of the public vector -/

section Missing

variable {O : Oracle} {hash : Bytes} {c : Poly .plain} {t0 : PolyVec .plain 8}

theorem represents_missing (hc : Poly.challenge O hash = some c) (h0 : t0.Within (-4095) 4096) :
    (t0.transform.scale c.transform).inverseTransform.reduce.Represents
      fun i => c.element * t0.element i :=
  respond_missing (.flat 0) (.flat 0) (.flat 0) (.flat 0) h0 (Poly.within_challenge hc)

theorem normBelow_element_missing (hc : Poly.challenge O hash = some c) (h0 : t0.Within (-4095) 4096)
    (i : Fin 8) : (c.element * t0.element i).NormBelow (60 * 4096 + 1) :=
  Poly.normBelow_challenge_mul hc (h0.abs_number_le (by norm_num) le_rfl i) (by norm_num)

theorem toInt_missing (hc : Poly.challenge O hash = some c) (h0 : t0.Within (-4095) 4096) (i : Fin 8)
    (j : Fin 256) : ((t0.transform.scale c.transform).inverseTransform.reduce.number i j).toInt =
      c.negacyclic (t0.get i) j := by
  rw [(represents_missing hc h0).toInt_eq (by norm_num) (normBelow_element_missing hc h0)]
  exact Poly.valMinAbs_challenge_mul (B := 4096) hc (h0.abs_number_le (by norm_num) le_rfl i)
    (by norm_num) j

theorem normBelow_missing (hc : Poly.challenge O hash = some c) (h0 : t0.Within (-4095) 4096) :
    (t0.transform.scale c.transform).inverseTransform.reduce.normBelow Params.gamma2 = true :=
  ((represents_missing hc h0).normBelow_iff Rounding.toInt_gamma2 (by norm_num) (by norm_num)).2
    fun i j => (normBelow_element_missing hc h0 i j).trans_le (by norm_num)

end Missing

/-! ## Three tests instead of four -/

/-- The answer of a round that makes all tests but the one on `c t0`. -/
def SigningKey.respondByThree (k : SigningKey) (c : Poly .transformed) (y : PolyVec .plain 7)
    (w : PolyVec.Parts 8) : Option Response :=
  let z := ((k.s1.scale c).inverseTransform.add y).reduce
  let low := (w.low.sub (k.s2.scale c).inverseTransform).reduce
  let ct0 := (k.t0.scale c).inverseTransform.reduce
  let hint := (low.add ct0).makeHint w.high
  if z.normBelow (Params.gamma1 - Params.beta) && low.normBelow (Params.gamma2 - Params.beta) &&
      hint.total ≤ Params.omega then
    some ⟨z, hint⟩
  else none

theorem SigningKey.respond_eq_respondByThree {k : SigningKey} {c : Poly .transformed}
    (h : (k.t0.scale c).inverseTransform.reduce.normBelow Params.gamma2 = true) (y : PolyVec .plain 7)
    (w : PolyVec.Parts 8) : k.respond c y w = k.respondByThree c y w := by
  simp only [respond, respondByThree, h, Bool.and_true]

/-- **The test on `c t0` never fails.** In every round of every secret key, in both variants, the reduced
coefficients of `c t0` are at most 60 times 4096, which is less than `gamma2`; so the other three tests
decide whether the round is accepted. -/
theorem missing_test_always_passes (O : Oracle) (v : Variant) (sk : SecretKey v) (k : SigningKey)
    (mu rhoPrime : ByteString 64) (nonce : UInt16) (s s' : Session)
    (r : Option (SignatureParts v.challengeBytes))
    (hk : SigningKey.ofParts O (SecretParts.decode sk) = some k)
    (hround : signRound O v.challengeBytes k mu rhoPrime nonce s = some (r, s')) :
    let y := PolyVec.uniformGamma1 O rhoPrime.bytes nonce
    let w := commitment k.matrix y
    let hash := ((s.hasher.absorbAll [mu.bytes, (PolyVec.pack .w1 w.high).bytes]).squeeze O.shake256
      v.challengeBytes).1
    ∃ c, Poly.challenge O hash.bytes = some c ∧
      let ct0 := (k.t0.scale c.transform).inverseTransform.reduce
      (∀ i j, |(ct0.number i j).toInt| ≤ 60 * 2 ^ 12) ∧ 60 * 2 ^ 12 < Params.gamma2.toInt ∧
        ct0.normBelow Params.gamma2 = true ∧
        r = (k.respondByThree c.transform y w).map fun a => ⟨hash, a.z, a.hint⟩ := by
  intro y w hash
  obtain ⟨hash', s1, hhash, h⟩ := Protocol.bind_eq_some_iff.1 hround
  obtain rfl : hash = hash' := (Prod.mk.inj (Option.some_inj.1 hhash)).1
  obtain ⟨c, s2, hc, h⟩ := Protocol.bind_eq_some_iff.1 h
  have hc := (Protocol.ofOption_eq_some_iff.1 hc).1
  have h0 := SecretParts.within_t0_decode sk
  have ht0 : k.t0 = (SecretParts.decode sk).t0.transform := by
    obtain ⟨A, -, rfl⟩ := Option.map_eq_some_iff.1 hk
    rfl
  have hnorm := normBelow_missing hc h0
  rw [← ht0] at hnorm
  refine ⟨c, hc, fun i j => ?_, by decide, hnorm, ?_⟩
  · rw [ht0, toInt_missing hc h0]
    exact Poly.abs_negacyclic_challenge_le hc (h0.abs_number_le (by norm_num) (by norm_num) i) j
  · rw [← SigningKey.respond_eq_respondByThree hnorm]
    exact (Prod.mk.inj (Option.some_inj.1 h)).1.symm

theorem isSome_signRound {O : Oracle} (length : ℕ) (hstop : ∀ hash, (Poly.challenge O hash).isSome)
    (k : SigningKey) (mu rhoPrime : ByteString 64) (nonce : UInt16) (s : Session) :
    (signRound O length k mu rhoPrime nonce s).isSome := by
  unfold signRound
  rw [Protocol.bind_of_apply rfl]
  obtain ⟨c, hc⟩ := Option.isSome_iff_exists.1 (hstop _)
  rw [hc, Protocol.bind_of_apply (Protocol.ofOption_some ..)]
  rfl

/-- The first round of a malformed secret key, all of whose bits are set. -/
theorem missing_test_always_passes_malformed :
    let sk : SecretKey .standard := ⟨List.replicate 4896 0xff, List.length_replicate⟩
    ∃ (k : SigningKey) (r : Option (SignatureParts 64)) (s' : Session),
      SigningKey.ofParts .constant (SecretParts.decode sk) = some k ∧
        signRound .constant 64 k (.zero 64) (.zero 64) 0 ⟨.empty, []⟩ = some (r, s') ∧
        let y := PolyVec.uniformGamma1 .constant (ByteString.zero 64).bytes 0
        ∃ hash c, (∀ i j, |((k.t0.scale c).inverseTransform.reduce.number i j).toInt| ≤ 60 * 2 ^ 12) ∧
          (k.t0.scale c).inverseTransform.reduce.normBelow Params.gamma2 = true ∧
          r = (k.respondByThree c y (commitment k.matrix y)).map fun a => ⟨hash, a.z, a.hint⟩ := by
  intro sk
  have hk : SigningKey.ofParts .constant (SecretParts.decode sk) = some _ :=
    congrArg (Option.map _) (Matrix.expand_repeating _ (SecretParts.decode sk).rho.bytes)
  obtain ⟨⟨r, s'⟩, hround⟩ := Option.isSome_iff_exists.1
    (isSome_signRound 64 (Poly.isSome_challenge_repeating _) _ (.zero 64) (.zero 64) 0 ⟨.empty, []⟩)
  obtain ⟨c, -, hle, -, hnorm, hr⟩ :=
    missing_test_always_passes .constant .standard sk _ _ _ _ _ _ _ hk hround
  exact ⟨_, r, s', hk, hround, _, _, hle, hnorm, hr⟩

end LatticeSignature
