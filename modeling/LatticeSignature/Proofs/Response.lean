import LatticeSignature.Proofs.Commitment
import LatticeSignature.Proofs.Hint

/-!
# What a signing round answers

A round in the ring: the secrets, a mask `y`, the product `w = A y` and a challenge `c`. The tests of a
round on 32-bit representatives are tests on the centred representatives of `y + c s1`, `w0 - c s2` and
`c t0`, whatever the secret key is.

* `Round`, `Round.Acceptable`: the data of a round, and its four tests in exact arithmetic.
* **`Round.corrected_hint`**: the hint leads back to the high bits of `w`.
* **`respond_eq_some_iff`**: a round answers if and only if it is acceptable, with the centred response
  and the hint.
-/

namespace LatticeSignature

/-- All centred representatives have absolute value below `bound`. -/
def Rq.NormBelow (a : Rq) (bound : ℤ) : Prop := ∀ j, |(a.coeff j).valMinAbs| < bound

namespace Rq.NormBelow

variable {a b : Rq} {A B : ℤ}

theorem add (ha : a.NormBelow A) (hb : b.NormBelow B) : (a + b).NormBelow (A + B) := by
  intro j
  have hle : |((a + b).coeff j).valMinAbs| ≤ |(a.coeff j).valMinAbs + (b.coeff j).valMinAbs| := by
    rw [coeff_add, Int.abs_eq_natAbs, Int.abs_eq_natAbs]
    exact Int.ofNat_le.2 (ZMod.natAbs_valMinAbs_add_le _ _)
  exact (hle.trans (abs_add_le _ _)).trans_lt (add_lt_add (ha j) (hb j))

theorem neg (ha : a.NormBelow A) : (-a).NormBelow A := by
  intro j
  rw [coeff_neg, Int.abs_eq_natAbs, ZMod.natAbs_valMinAbs_neg, ← Int.abs_eq_natAbs]
  exact ha j

theorem sub (ha : a.NormBelow A) (hb : b.NormBelow B) : (a - b).NormBelow (A + B) := by
  rw [sub_eq_add_neg]
  exact ha.add hb.neg

end Rq.NormBelow

/-- The data of a signing round, as ring elements. -/
structure Round where
  /-- First short secret. -/
  s1 : Fin 7 → Rq
  /-- Second short secret. -/
  s2 : Fin 8 → Rq
  /-- Low part of the public vector. -/
  t0 : Fin 8 → Rq
  /-- The mask. -/
  y : Fin 7 → Rq
  /-- The product of the public matrix and the mask. -/
  w : Fin 8 → Rq
  /-- The challenge. -/
  c : Rq

namespace Round

variable (r : Round)

/-- The response `y + c s1`. -/
def response (i : Fin 7) : Rq := r.y i + r.c * r.s1 i

/-- The low bits of `w`, less `c s2`. -/
def low (i : Fin 8) : Rq := (r.w i).lowBits - r.c * r.s2 i

/-- What the public vector does not show of `c t`. -/
def missing (i : Fin 8) : Rq := r.c * r.t0 i

/-- A hint is needed where the low part leaves its bucket. -/
def NeedsHint (i : Fin 8) (j : Fin 256) : Prop :=
  Rounding.HintNeeded ((r.low i + r.missing i).coeff j).valMinAbs ((r.w i).highBits j)

instance (i : Fin 8) (j : Fin 256) : Decidable (r.NeedsHint i j) :=
  inferInstanceAs (Decidable (Rounding.HintNeeded _ _))

/-- The number of ones of the hint. -/
def hintCount : ℕ := (Finset.univ.filter fun x : Fin 8 × Fin 256 => r.NeedsHint x.1 x.2).card

/-- The hint, as it is stored in a signature. -/
def hint : PolyVec .plain 8 := .ofFn fun i => .ofFn fun j => if r.NeedsHint i j then 1 else 0

/-- The response, as it is stored in a signature. -/
def centredResponse : PolyVec .plain 7 := .ofFn fun i => (r.response i).centred

/-- **The four tests of a round.** -/
structure Acceptable : Prop where
  response_lt : ∀ i, (r.response i).NormBelow (524288 - 120)
  low_lt : ∀ i, (r.low i).NormBelow (261888 - 120)
  missing_lt : ∀ i, (r.missing i).NormBelow 261888
  hintCount_le : r.hintCount ≤ 75

@[simp]
theorem number_hint (i : Fin 8) (j : Fin 256) :
    r.hint.number i j = if r.NeedsHint i j then 1 else 0 := by
  have : r.hint.get i = Poly.ofFn fun j => if r.NeedsHint i j then 1 else 0 := Vector.getElem_ofFn _
  rw [PolyVec.number, this, Poly.number_ofFn]

theorem hint_zero_or_one (i : Fin 8) (j : Fin 256) :
    r.hint.number i j = 0 ∨ r.hint.number i j = 1 := by
  rw [number_hint]
  split
  · exact Or.inr rfl
  · exact Or.inl rfl

theorem number_hint_ne_zero_iff (i : Fin 8) (j : Fin 256) : r.hint.number i j ≠ 0 ↔ r.NeedsHint i j := by
  rw [number_hint]
  split
  · rename_i hneeds
    exact iff_of_true (by decide) hneeds
  · rename_i hneeds
    exact iff_of_false (fun h => h rfl) hneeds

theorem total_hint : r.hint.total = r.hintCount := PolyVec.total_eq_card (number_hint r)

@[simp]
theorem get_centredResponse (i : Fin 7) : r.centredResponse.get i = (r.response i).centred :=
  Vector.getElem_ofFn _

theorem toInt_centredResponse (i : Fin 7) (j : Fin 256) :
    (r.centredResponse.number i j).toInt = ((r.response i).coeff j).valMinAbs := by
  rw [PolyVec.number, get_centredResponse, Rq.toInt_centred]

variable {r}

theorem Acceptable.within_centredResponse (h : r.Acceptable) :
    r.centredResponse.Within (-524287) 524288 := by
  intro i j
  have hlt := abs_lt.1 (h.response_lt i j)
  rw [← PolyVec.number, toInt_centredResponse]
  omega

/-! ## The hint -/

/-- Below half of `q` the centred representative of a sum is the sum of the centred representatives. -/
theorem valMinAbs_add {x y : Zq} {a b : ℤ} (hx : |x.valMinAbs| < a) (hy : |y.valMinAbs| < b)
    (hab : a + b ≤ 4190208) : (x + y).valMinAbs = x.valMinAbs + y.valMinAbs := by
  have hsum : |x.valMinAbs + y.valMinAbs| ≤ 4190208 := by
    linarith [abs_add_le x.valMinAbs y.valMinAbs]
  have hcast : x + y = ((x.valMinAbs + y.valMinAbs : ℤ) : Zq) := by
    rw [Int.cast_add, ZMod.coe_valMinAbs, ZMod.coe_valMinAbs]
  rw [hcast]
  exact Poly.valMinAbs_intCast hsum

/-- **The hint leads back to the high bits**: a verifier who finds `w - c s2 + c t0` corrects it to the
high bits of `w`. -/
theorem corrected_hint (hlow : ∀ i, (r.low i).NormBelow (261888 - 120))
    (hmissing : ∀ i, (r.missing i).NormBelow 261888) (i : Fin 8) (j : Fin 256) :
    Rounding.corrected ((r.w i - r.c * r.s2 i + r.c * r.t0 i).coeff j).val (r.NeedsHint i j) =
      (r.w i).highBits j := by
  have hw := Rq.val_range ((r.w i).coeff j)
  have hsum : ((r.low i + r.missing i).coeff j).valMinAbs =
      ((r.low i).coeff j).valMinAbs + ((r.missing i).coeff j).valMinAbs :=
    valMinAbs_add (hlow i j) (hmissing i j) (by norm_num)
  -- the change `u` of the low part, and the change `v` by what the public vector does not show
  obtain ⟨u, hu⟩ : ∃ u, u = ((r.low i).coeff j).valMinAbs - Rounding.lowBits ((r.w i).coeff j).val :=
    ⟨_, rfl⟩
  obtain ⟨v, hv⟩ : ∃ v, v = ((r.missing i).coeff j).valMinAbs := ⟨_, rfl⟩
  have hcast : (r.w i - r.c * r.s2 i + r.c * r.t0 i).coeff j =
      ((((r.w i).coeff j).val + u + v : ℤ) : Zq) := by
    have hlowcoeff : (r.low i).coeff j =
        (Rounding.lowBits ((r.w i).coeff j).val : ℤ) - (r.c * r.s2 i).coeff j := rfl
    rw [hu, hv]
    push_cast
    rw [ZMod.natCast_zmod_val, hlowcoeff]
    rw [Rq.coeff_add, Rq.coeff_sub, missing]
    ring
  have hval : (((r.w i - r.c * r.s2 i + r.c * r.t0 i).coeff j).val : ℤ) =
      (((r.w i).coeff j).val + u + v) % 8380417 := by
    rw [hcast, ZMod.val_intCast]
    rfl
  have hback := Rounding.corrected_add (u := u) (v := v) hw.1 hw.2
    (by rw [hu, add_sub_cancel]; exact hlow i j) (by rw [hv]; exact hmissing i j)
  have hneeds : r.NeedsHint i j ↔ Rounding.HintNeeded
      (Rounding.lowBits ((r.w i).coeff j).val + u + v) (Rounding.highBits ((r.w i).coeff j).val) := by
    rw [NeedsHint, hsum, hu, hv, add_sub_cancel]
    rfl
  rw [hval]
  exact (Rounding.corrected_congr hneeds).trans hback

/-- A round with room for the missing part below the bound of the low part needs no hint. -/
theorem acceptable_of_room {L M : ℤ} (hresponse : ∀ i, (r.response i).NormBelow (524288 - 120))
    (hlow : ∀ i, (r.low i).NormBelow L) (hmissing : ∀ i, (r.missing i).NormBelow M)
    (hL : L ≤ 261888 - 120) (hM : M ≤ 261888) (hsum : L + M ≤ 261888) : r.Acceptable := by
  have hneeds : ∀ i j, ¬r.NeedsHint i j := by
    intro i j
    have hlt := abs_lt.1 (((hlow i).add (hmissing i) j).trans_le hsum)
    unfold NeedsHint Rounding.HintNeeded
    omega
  refine ⟨hresponse, fun i j => (hlow i j).trans_le hL, fun i j => (hmissing i j).trans_le hM, ?_⟩
  rw [hintCount, Finset.filter_false_of_mem fun x _ => hneeds x.1 x.2]
  norm_num

end Round

/-! ## The tests on representatives -/

/-- The entries of a reduced vector represent ring elements. -/
def PolyVec.Represents {n : ℕ} (v : PolyVec .plain n) (a : Fin n → Rq) : Prop :=
  ∀ i : Fin n, (v.get i).element = a i ∧ (v.get i).Within (-6283009) 6283008

namespace PolyVec.Represents

variable {n : ℕ} {v : PolyVec .plain n} {a : Fin n → Rq} {B : ℤ}

theorem normBelow_iff (hv : v.Represents a) {bound : Int32} (hB : bound.toInt = B) (h1 : 1 ≤ B)
    (h2 : B ≤ 1047552) : v.normBelow bound = true ↔ ∀ i, (a i).NormBelow B := by
  rw [PolyVec.normBelow_iff]
  refine forall_congr' fun i => ?_
  rw [Poly.normBelow_iff_centred (hv i).2 (hB ▸ h1) (hB ▸ h2), (hv i).1, hB]
  rfl

theorem entry_eq_centred (hv : v.Represents a) (hB : B ≤ 1047552) (h : ∀ i, (a i).NormBelow B)
    (i : Fin n) : v.get i = (a i).centred := by
  have hrep : (v.get i).Within (-4190208) 4190208 := by
    intro j
    have hlt := h i j
    rw [← (hv i).1, Poly.coeff_element] at hlt
    obtain ⟨hlo, hhi⟩ := (hv i).2 j
    have := abs_lt.1 ((Poly.abs_lt_iff_abs_valMinAbs_lt hlo hhi (by linarith)).2 hlt)
    exact ⟨by linarith, by linarith⟩
  rw [← (hv i).1]
  exact Poly.eq_centred hrep

theorem toInt_eq (hv : v.Represents a) (hB : B ≤ 1047552) (h : ∀ i, (a i).NormBelow B) (i : Fin n)
    (j : Fin 256) : (v.number i j).toInt = ((a i).coeff j).valMinAbs := by
  rw [PolyVec.number, hv.entry_eq_centred hB h, Rq.toInt_centred]

end PolyVec.Represents

/-- The round of a signing key, a mask and a challenge. -/
noncomputable def Round.ofKey (A : Matrix) (s1 : PolyVec .plain 7) (s2 t0 : PolyVec .plain 8)
    (y : PolyVec .plain 7) (c : Poly .plain) : Round :=
  ⟨s1.element, s2.element, t0.element, y.element, A.product y.element, c.element⟩

section Respond

variable {A : Matrix} {s1 : PolyVec .plain 7} {s2 t0 : PolyVec .plain 8} {y : PolyVec .plain 7}
  {c : Poly .plain}

variable (A s2 t0) in
theorem respond_response (h1 : s1.Within (-5) 2) (hy : y.Within (-524287) 524288)
    (hc : c.Within (-1) 1) :
    ((s1.transform.scale c.transform).inverseTransform.add y).reduce.Represents
      (Round.ofKey A s1 s2 t0 y c).response := by
  intro i
  have hs := PolyVec.element_scale_transform hc (h1.mono (by norm_num) (by norm_num)) i
  have hadd := Poly.element_add hs.2 (hy i) (by norm_num) (by norm_num)
  have hred := Poly.element_reduce hadd.2 (by norm_num)
  rw [PolyVec.get_reduce, PolyVec.get_add]
  refine ⟨?_, hred.2⟩
  rw [hred.1, hadd.1, hs.1, add_comm]
  rfl

variable (s1 t0) in
theorem respond_low (hA : A.Within 0 8380416) (h2 : s2.Within (-5) 2)
    (hy : y.Within (-524287) 524288) (hc : c.Within (-1) 1) :
    ((commitment A y).low.sub (s2.transform.scale c.transform).inverseTransform).reduce.Represents
      (Round.ofKey A s1 s2 t0 y c).low := by
  intro i
  have hw := fun j => (toInt_commitment hA (hy.mono (by norm_num) le_rfl) (by norm_num) i j).2
  have hlow : ((commitment A y).low.get i).element = (A.product y.element i).lowBits := by
    refine Rq.ext (funext fun j => ?_)
    rw [Poly.coeff_element, Residue.cls, ← PolyVec.number, hw]
    rfl
  have hrange := within_commitment_low hA (hy.mono (by norm_num) le_rfl) (by norm_num) i
  have hs := PolyVec.element_scale_transform hc (h2.mono (by norm_num) (by norm_num)) i
  have hsub := Poly.element_sub hrange hs.2 (by norm_num) (by norm_num)
  have hred := Poly.element_reduce hsub.2 (by norm_num)
  rw [PolyVec.get_reduce, PolyVec.get_sub]
  refine ⟨?_, hred.2⟩
  rw [hred.1, hsub.1, hs.1, hlow]
  rfl

variable (A s1 s2 y) in
theorem respond_missing (h0 : t0.Within (-4095) 4096) (hc : c.Within (-1) 1) :
    (t0.transform.scale c.transform).inverseTransform.reduce.Represents
      (Round.ofKey A s1 s2 t0 y c).missing := by
  intro i
  have hs := PolyVec.element_scale_transform hc (h0.mono (by norm_num) (by norm_num)) i
  have hred := Poly.element_reduce hs.2 (by norm_num)
  rw [PolyVec.get_reduce]
  exact ⟨by rw [hred.1, hs.1]; rfl, hred.2⟩

theorem toInt_lowBound : (Params.gamma2 - Params.beta).toInt = 261888 - 120 := rfl

theorem respond_hint {low ct0 : PolyVec .plain 8} (hA : A.Within 0 8380416)
    (hy : y.Within (-524287) 524288) (hlow : low.Represents (Round.ofKey A s1 s2 t0 y c).low)
    (hct0 : ct0.Represents (Round.ofKey A s1 s2 t0 y c).missing)
    (hl : ∀ i, ((Round.ofKey A s1 s2 t0 y c).low i).NormBelow (261888 - 120))
    (hm : ∀ i, ((Round.ofKey A s1 s2 t0 y c).missing i).NormBelow 261888) :
    (low.add ct0).makeHint (commitment A y).high = (Round.ofKey A s1 s2 t0 y c).hint := by
  refine PolyVec.ext_entries fun i => Poly.ext_number fun j => ?_
  have hl' := hlow.toInt_eq (by norm_num) hl i j
  have hm' := hct0.toInt_eq (by norm_num) hm i j
  have hlt := abs_lt.1 (hl i j)
  have hmt := abs_lt.1 (hm i j)
  have hsum : (low.number i j + ct0.number i j).toInt =
      (((Round.ofKey A s1 s2 t0 y c).low i +
        (Round.ofKey A s1 s2 t0 y c).missing i).coeff j).valMinAbs := by
    rw [Words.toInt_add (by rw [hl', hm']; linarith) (by rw [hl', hm']; linarith), hl', hm']
    exact (Round.valMinAbs_add (hl i j) (hm i j) (by norm_num)).symm
  have hrange := abs_le.1 (Rq.abs_valMinAbs_le
    (((Round.ofKey A s1 s2 t0 y c).low i + (Round.ofKey A s1 s2 t0 y c).missing i).coeff j))
  have hw := (toInt_commitment hA (hy.mono (by norm_num) le_rfl) (by norm_num) i j).1
  rw [PolyVec.get_makeHint, PolyVec.get_add, Poly.makeHint, Poly.number_zipWith, Poly.add,
    Poly.number_zipWith, Rounding.makeHint_eq (by rw [hsum]; linarith) (by rw [hsum]; linarith),
    hsum, hw]
  exact (Round.number_hint _ i j).symm

/-- **A round answers exactly if it is acceptable**, for secrets of any secret key: with the centred
response and the hint. -/
theorem respond_eq_some_iff (hA : A.Within 0 8380416) (h1 : s1.Within (-5) 2) (h2 : s2.Within (-5) 2)
    (h0 : t0.Within (-4095) 4096) (hy : y.Within (-524287) 524288) (hc : c.Within (-1) 1)
    {a : Response} :
    SigningKey.respond ⟨A, s1.transform, s2.transform, t0.transform⟩ c.transform y (commitment A y) =
        some a ↔
      (Round.ofKey A s1 s2 t0 y c).Acceptable ∧
        a = ⟨(Round.ofKey A s1 s2 t0 y c).centredResponse, (Round.ofKey A s1 s2 t0 y c).hint⟩ := by
  have hz := respond_response A s2 t0 h1 hy hc
  have hlow := respond_low s1 t0 hA h2 hy hc
  have hct0 := respond_missing A s1 s2 y h0 hc
  have t1 := hz.normBelow_iff toInt_responseBound (by norm_num) (by norm_num)
  have t2 := hlow.normBelow_iff toInt_lowBound (by norm_num) (by norm_num)
  have t3 := hct0.normBelow_iff Rounding.toInt_gamma2 (by norm_num) (by norm_num)
  have hhint := respond_hint hA hy hlow hct0
  have hresponse := fun h => PolyVec.ext_entries fun i =>
    (hz.entry_eq_centred (by norm_num : (524288 - 120 : ℤ) ≤ 1047552) h i).trans
      (Round.get_centredResponse (Round.ofKey A s1 s2 t0 y c) i).symm
  constructor
  · intro h
    simp only [SigningKey.respond] at h
    split at h
    · rename_i htests
      rw [Bool.and_eq_true, Bool.and_eq_true, Bool.and_eq_true, decide_eq_true_eq, t1, t2, t3] at htests
      obtain ⟨⟨⟨h1, h2⟩, h3⟩, h4⟩ := htests
      have heq := hhint h2 h3
      rw [heq, Round.total_hint] at h4
      refine ⟨⟨h1, h2, h3, h4⟩, ?_⟩
      rw [← Option.some_inj.1 h, heq, hresponse h1]
    · exact absurd h (by simp)
  · rintro ⟨hacc, rfl⟩
    have heq := hhint hacc.low_lt hacc.missing_lt
    have ht : (Round.ofKey A s1 s2 t0 y c).hint.total ≤ Params.omega :=
      (Round.total_hint _).trans_le hacc.hintCount_le
    simp only [SigningKey.respond, heq]
    rw [t1.2 hacc.response_lt, t2.2 hacc.low_lt, t3.2 hacc.missing_lt, decide_eq_true ht,
      hresponse hacc.response_lt]
    rfl

end Respond

end LatticeSignature
