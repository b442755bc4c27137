import LatticeSignature.Proofs.Completeness

/-!
# Hint reconciliation

A hint leads from a value that is off by a small amount back to the high part it was made for. This
holds word by word, entry by entry, and therefore in every accepted signing round: for the vector that
the round's data determine, and for the one that a verifier computes.

* `Rounding.useHint_makeHint_of_toInt`, `PolyVec.useHint_makeHint`: words and vectors.
* `SigningKey.hint`: the hint of a round, as the signer computes it.
* `Round.useHint_hint`, `Round.recoverHigh_eq`: the two vectors of a round.
* **`useHint_recovers_high`**.
-/

namespace LatticeSignature

/-! ## Words and vectors -/

/-- **A hint undoes a small change of a word**: `x` differs from `w` by `u + v`, and so does the low
part that the hint was made from. -/
theorem Rounding.useHint_makeHint_of_toInt {w x low : Int32} {u v : ℤ} (hw : 0 ≤ w.toInt)
    (hw' : w.toInt ≤ 8380416) (hu : |(decompose w).low.toInt + u| < 261888 - 120) (hv : |v| < 261888)
    (hx : x.toInt = (w.toInt + u + v) % 8380417) (hlow : low.toInt = (decompose w).low.toInt + u + v) :
    useHint x (makeHint low (decompose w).high) = (decompose w).high := by
  obtain ⟨hhigh, hlowBits⟩ := toInt_decompose hw hw'
  rw [hlowBits] at hu hlow
  have hu' := abs_lt.1 hu
  have hv' := abs_lt.1 hv
  have hset : makeHint low (decompose w).high ≠ 0 ↔
      HintNeeded (lowBits w.toInt + u + v) (highBits w.toInt) := by
    rw [makeHint_eq (by omega) (by omega), hlow, hhigh]
    split
    · rename_i hneeded
      exact iff_of_true (by decide) hneeded
    · rename_i hneeded
      exact iff_of_false (fun h => h rfl) hneeded
  apply Int32.toInt_inj.1
  rw [toInt_useHint _ (by omega) (by omega), corrected_congr hset, hx, hhigh]
  exact corrected_add hw hw' hu hv

namespace PolyVec

variable {n : ℕ}

/-- The vector of the words with given values. -/
def ofInt (f : Fin n → Fin 256 → ℤ) : PolyVec .plain n :=
  .ofFn fun i => .ofFn fun j => Int32.ofInt (f i j)

theorem toInt_number_ofInt {f : Fin n → Fin 256 → ℤ} {i : Fin n} {j : Fin 256}
    (h : -2147483648 ≤ f i j) (h' : f i j ≤ 2147483647) : ((ofInt f).number i j).toInt = f i j := by
  rw [number, ofInt, get_ofFn, Poly.number_ofFn]
  exact Int32.toInt_ofInt_of_le (by norm_num; exact h) (by norm_num; omega)

theorem ext_toInt {d : Domain} {u v : PolyVec d n}
    (h : ∀ i j, (u.number i j).toInt = (v.number i j).toInt) : u = v :=
  ext_entries fun i => Poly.ext_number fun j => Int32.toInt_inj.1 (h i j)

theorem useHint_makeHint {w : PolyVec .plain n} {u v : Fin n → Fin 256 → ℤ} (hw : w.Within 0 8380416)
    (hu : ∀ i j, |(w.decompose.low.number i j).toInt + u i j| < 261888 - 120)
    (hv : ∀ i j, |v i j| < 261888) :
    (ofInt fun i j => ((w.number i j).toInt + u i j + v i j) % 8380417).useHint
      ((ofInt fun i j => (w.decompose.low.number i j).toInt + u i j + v i j).makeHint
        w.decompose.high) = w.decompose.high := by
  refine ext_entries fun i => Poly.ext_number fun j => ?_
  have hlow : w.decompose.low.number i j = (Rounding.decompose (w.number i j)).low := by
    rw [number, get_decompose_low, Poly.decompose, Poly.number_map]
  have hu' := abs_lt.1 (hu i j)
  have hv' := abs_lt.1 (hv i j)
  rw [get_useHint, get_makeHint, get_decompose_high, Poly.useHint, Poly.makeHint, Poly.number_zipWith,
    Poly.number_zipWith, Poly.decompose, Poly.number_map]
  refine Rounding.useHint_makeHint_of_toInt (u := u i j) (v := v i j) (hw i j).1 (hw i j).2 ?_ (hv i j) ?_ ?_
  · rw [← number, ← hlow]
    exact hu i j
  · exact toInt_number_ofInt (by omega) (by omega)
  · rw [← number, ← hlow]
    exact toInt_number_ofInt (by omega) (by omega)

end PolyVec

/-! ## Accepted rounds -/

/-- The hint of a round with the challenge `c` and the commitment `w`, as the signer computes it. -/
def SigningKey.hint (k : SigningKey) (c : Poly .transformed) (w : PolyVec.Parts 8) : PolyVec .plain 8 :=
  ((w.low.sub (k.s2.scale c).inverseTransform).reduce.add
    (k.t0.scale c).inverseTransform.reduce).makeHint w.high

namespace Round

variable {A : Matrix} {s1 y : PolyVec .plain 7} {s2 t0 : PolyVec .plain 8} {c : Poly .plain}

theorem useHint_hint (hA : A.Within 0 8380416) (hy : y.Within (-524288) 524288)
    (hacc : (ofKey A s1 s2 t0 y c).Acceptable) :
    (PolyVec.ofInt fun i j => ((A.product y.element i - c.element * s2.element i +
        c.element * t0.element i).coeff j).val).useHint (ofKey A s1 s2 t0 y c).hint =
      (commitment A y).high := by
  refine PolyVec.ext_toInt fun i j => ?_
  have hrange := Rq.val_range
    ((A.product y.element i - c.element * s2.element i + c.element * t0.element i).coeff j)
  have hx := PolyVec.toInt_number_ofInt (f := fun i j => ((A.product y.element i -
    c.element * s2.element i + c.element * t0.element i).coeff j).val) (i := i) (j := j)
    (by omega) (by omega)
  rw [(toInt_commitment hA hy (by norm_num) i j).1, PolyVec.number, PolyVec.get_useHint, Poly.useHint,
    Poly.number_zipWith, Rounding.toInt_useHint _ (hx ▸ hrange.1) (hx ▸ hrange.2), ← PolyVec.number, hx]
  exact (Rounding.corrected_congr (number_hint_ne_zero_iff _ i j)).trans
    (corrected_hint hacc.low_lt hacc.missing_lt i j)

theorem recoverHigh_eq {t : PolyVec.Parts 8} (hA : A.Within 0 8380416) (hy : y.Within (-524288) 524288)
    (hc : c.Within (-1) 1) (hhigh : t.high.Within 0 1023)
    (ht : ∀ i, 8192 * t.high.element i + t.low.element i = A.product s1.element i + s2.element i)
    (hacc : (ofKey A s1 s2 t.low y c).Acceptable) :
    recoverHigh A c.transform t.high (ofKey A s1 s2 t.low y c).centredResponse
      (ofKey A s1 s2 t.low y c).hint = (commitment A y).high := by
  refine PolyVec.ext_toInt fun i j => ?_
  have hz := hacc.within_centredResponse.mono (by norm_num : (-524288 : ℤ) ≤ _) le_rfl
  rw [toInt_recoverHigh hA hc hhigh hz, recovered_of_acceptable ht hacc,
    (toInt_commitment hA hy (by norm_num) i j).1]

end Round

namespace SigningTask

theorem hint_key {t : SigningTask} {y : PolyVec .plain 7} {c : Poly .plain} (ht : t.InRange)
    (hy : y.Within (-524287) 524288) (hc : c.Within (-1) 1)
    (hacc : (Round.ofKey t.matrix t.s1 t.s2 t.t0 y c).Acceptable) :
    t.key.hint c.transform (commitment t.matrix y) = (Round.ofKey t.matrix t.s1 t.s2 t.t0 y c).hint :=
  respond_hint ht.matrix hy (respond_low t.s1 t.t0 ht.matrix ht.s2 hy hc)
    (respond_missing t.matrix t.s1 t.s2 y ht.t0 hc) hacc.low_lt hacc.missing_lt

end SigningTask

section Accepted

variable {O : Oracle} {v : Variant} {k : SigningKey} {mu rhoPrime : ByteString 64} {nonce : UInt16}
  {s s' : Session} {p : SignatureParts v.challengeBytes}

theorem useHint_of_signRound {sk : SecretKey v} (hk : SigningKey.ofParts O (SecretParts.decode sk) = some k)
    (h : signRound O v.challengeBytes k mu rhoPrime nonce s = some (some p, s')) :
    let y := PolyVec.uniformGamma1 O rhoPrime.bytes nonce
    ∃ c, Poly.challenge O p.challenge.bytes = some c ∧
      p.hint = k.hint c.transform (commitment k.matrix y) ∧
      (PolyVec.ofInt fun i j => ((k.matrix.product y.element i -
          c.element * (SecretParts.decode sk).s2.element i +
          c.element * (SecretParts.decode sk).t0.element i).coeff j).val).useHint p.hint =
        (commitment k.matrix y).high := by
  obtain ⟨t, ht, rfl, rfl, rfl, -, -, h2, h0⟩ := SigningKey.exists_task hk mu rhoPrime
  obtain ⟨c, hc, hacc, hp⟩ := SigningTask.exists_acceptable_of_signRound ht h
  have hy := PolyVec.within_uniformGamma1 O t.rhoPrime.bytes nonce
  refine ⟨c, hc, ?_, ?_⟩
  · rw [hp]
    exact (SigningTask.hint_key ht hy (Poly.within_challenge hc) hacc).symm
  · rw [hp, ← h2, ← h0]
    exact Round.useHint_hint ht.matrix (hy.mono (by norm_num) le_rfl) hacc

theorem recoverHigh_of_signRound {seed : ByteString 32} {keys : KeyPair v} {events : List Event}
    (hgen : (KeyPair.generate O v seed).fresh = some (keys, events))
    (hk : SigningKey.ofParts O (SecretParts.decode keys.secretKey) = some k)
    (h : signRound O v.challengeBytes k mu rhoPrime nonce s = some (some p, s')) :
    let pk := PublicParts.decode keys.publicKey
    ∃ c, Poly.challenge O p.challenge.bytes = some c ∧
      Matrix.expand O pk.rho.bytes = some k.matrix ∧
      recoverHigh k.matrix c.transform pk.t1 p.z p.hint =
        (commitment k.matrix (PolyVec.uniformGamma1 O rhoPrime.bytes nonce)).high := by
  obtain ⟨A, s1, s2, hA, h1, h2, rfl⟩ := KeyPair.exists_of_generate hgen
  have h1 := PolyVec.within_uniformEta h1
  have h2 := PolyVec.within_uniformEta h2
  have hA0 := Matrix.within_expand hA
  obtain ⟨t, ht, rfl, rfl, rfl, hmatrix, hs1, hs2, ht0⟩ := SigningKey.exists_task hk mu rhoPrime
  rw [KeyPair.decode_secretKey _ _ _ _ hA0 h1 h2] at hmatrix hs1 hs2 ht0
  obtain rfl := Option.some_inj.1 (hA.symm.trans hmatrix)
  obtain ⟨c, hc, hacc, hp⟩ := SigningTask.exists_acceptable_of_signRound ht h
  rw [hs1, hs2, ht0] at hacc hp
  have hy := PolyVec.within_uniformGamma1 O t.rhoPrime.bytes nonce
  rw [KeyPair.decode_publicKey _ _ _ _ hA0 h1 h2]
  refine ⟨c, hc, hA, ?_⟩
  rw [hp]
  exact Round.recoverHigh_eq ht.matrix (hy.mono (by norm_num) le_rfl) (Poly.within_challenge hc)
    (within_publicVector_high hA0 h1 h2) (element_publicVector hA0 h1 h2) hacc

end Accepted

/-- **Hint reconciliation.** A hint that was made for a low part which a small `u` leaves in its bucket,
and a further `v` moves by less than a bucket, leads from the changed value to the high part of the
original one; so for words, and for vectors. Hence in every accepted signing round, of any secret key
and in both variants, the hint of the signature leads from `A y - c s2 + c t0` to the high part of `A y`,
and for a generated key pair that is what the verifier finds. -/
theorem useHint_recovers_high :
    (∀ (w : Int32) (u v : ℤ), 0 ≤ w.toInt → w.toInt < 8380417 →
      |(Rounding.decompose w).low.toInt + u| < 261888 - 120 → |v| < 261888 →
      Rounding.useHint (Int32.ofInt ((w.toInt + u + v) % 8380417))
          (Rounding.makeHint (Int32.ofInt ((Rounding.decompose w).low.toInt + u + v))
            (Rounding.decompose w).high) =
        (Rounding.decompose w).high) ∧
    (∀ (w : PolyVec .plain 8) (u v : Fin 8 → Fin 256 → ℤ),
      (∀ i j, 0 ≤ (w.number i j).toInt ∧ (w.number i j).toInt < 8380417) →
      (∀ i j, |(w.decompose.low.number i j).toInt + u i j| < 261888 - 120) →
      (∀ i j, |v i j| < 261888) →
      (PolyVec.ofInt fun i j => ((w.number i j).toInt + u i j + v i j) % 8380417).useHint
          ((PolyVec.ofInt fun i j => (w.decompose.low.number i j).toInt + u i j + v i j).makeHint
            w.decompose.high) =
        w.decompose.high) ∧
    ∀ (O : Oracle) (v : Variant) (sk : SecretKey v) (k : SigningKey) (mu rhoPrime : ByteString 64)
      (nonce : UInt16) (s s' : Session) (p : SignatureParts v.challengeBytes),
      SigningKey.ofParts O (SecretParts.decode sk) = some k →
      signRound O v.challengeBytes k mu rhoPrime nonce s = some (some p, s') →
      let y := PolyVec.uniformGamma1 O rhoPrime.bytes nonce
      (∃ c, Poly.challenge O p.challenge.bytes = some c ∧
        p.hint = k.hint c.transform (commitment k.matrix y) ∧
        (PolyVec.ofInt fun i j => ((k.matrix.product y.element i -
            c.element * (SecretParts.decode sk).s2.element i +
            c.element * (SecretParts.decode sk).t0.element i).coeff j).val).useHint p.hint =
          (commitment k.matrix y).high) ∧
      ∀ (seed : ByteString 32) (keys : KeyPair v) (events : List Event),
        (KeyPair.generate O v seed).fresh = some (keys, events) → keys.secretKey = sk →
        let pk := PublicParts.decode keys.publicKey
        ∃ c, Poly.challenge O p.challenge.bytes = some c ∧
          Matrix.expand O pk.rho.bytes = some k.matrix ∧
          recoverHigh k.matrix c.transform pk.t1 p.z p.hint = (commitment k.matrix y).high := by
  refine ⟨?_, ?_, ?_⟩
  · intro w u v hw hw' hu hv
    have hu' := abs_lt.1 hu
    have hv' := abs_lt.1 hv
    exact Rounding.useHint_makeHint_of_toInt hw (by omega) hu hv
      (Int32.toInt_ofInt_of_le (by norm_num; omega) (by norm_num; omega))
      (Int32.toInt_ofInt_of_le (by norm_num; omega) (by norm_num; omega))
  · intro w u v hw hu hv
    exact PolyVec.useHint_makeHint (fun i j => ⟨(hw i j).1, Int.le_of_lt_add_one (hw i j).2⟩) hu hv
  · intro O v sk k mu rhoPrime nonce s s' p hk h y
    refine ⟨useHint_of_signRound hk h, fun seed keys events hgen hkeys => ?_⟩
    subst hkeys
    exact recoverHigh_of_signRound hgen hk h

/-- The topmost representative, pushed down as far as the bounds allow; a vector of zeros, pushed up; and
the accepted round of a generated key. -/
theorem useHint_recovers_high_reluctant :
    (let w : Int32 := 8380416
    Rounding.useHint (Int32.ofInt ((w.toInt + -261766 + -261887) % 8380417))
        (Rounding.makeHint (Int32.ofInt ((Rounding.decompose w).low.toInt + -261766 + -261887))
          (Rounding.decompose w).high) =
      (Rounding.decompose w).high) ∧
    (let w : PolyVec .plain 8 := PolyVec.zero
    (PolyVec.ofInt fun i j => ((w.number i j).toInt + 261767 + 261887) % 8380417).useHint
        ((PolyVec.ofInt fun i j => (w.decompose.low.number i j).toInt + 261767 + 261887).makeHint
          w.decompose.high) =
      w.decompose.high) ∧
    ∃ (keys : KeyPair .standard) (k : SigningKey) (rhoPrime : ByteString 64) (p : SignatureParts 64),
      let y := PolyVec.uniformGamma1 .reluctant rhoPrime.bytes 1
      (∃ c, p.hint = k.hint c (commitment k.matrix y)) ∧
        ∃ c, recoverHigh k.matrix c (PublicParts.decode keys.publicKey).t1 p.z p.hint =
          (commitment k.matrix y).high := by
  obtain ⟨hword, hvector, hround⟩ := useHint_recovers_high
  have hzero (i : Fin 8) (j : Fin 256) : (PolyVec.zero : PolyVec .plain 8).number i j = 0 := by
    rw [PolyVec.number, PolyVec.get_zero, Poly.number_zero]
  have hlow (i : Fin 8) (j : Fin 256) :
      (PolyVec.zero : PolyVec .plain 8).decompose.low.number i j = 0 := by
    rw [PolyVec.number, PolyVec.get_decompose_low, Poly.decompose, Poly.number_map, ← PolyVec.number, hzero]
    rfl
  refine ⟨hword _ _ _ (by decide) (by decide) (by decide) (by decide), ?_, ?_⟩
  · refine hvector _ (fun _ _ => 261767) (fun _ _ => 261887) (fun i j => ?_) (fun i j => ?_)
      fun _ _ => by decide
    · rw [hzero]
      decide
    · rw [hlow]
      decide
  · obtain ⟨keys, events, hgen, -, p, hp⟩ := exists_answer_reluctant .standard (.zero 32) [] [] []
    have hexpand : Matrix.expand .reluctant (SecretParts.decode keys.secretKey).rho.bytes =
        some (.flat 0x323232) := Matrix.expand_repeating ..
    have hkey : SigningKey.ofParts .reluctant (SecretParts.decode keys.secretKey) = some _ :=
      congrArg (Option.map _) hexpand
    let t := SigningTask.ofSecretKey .reluctant keys.secretKey [] [] [] (.flat 0x323232)
    have hrun : signRound .reluctant 64 t.key t.mu t.rhoPrime (1 : ℕ).toUInt16 ⟨.empty, []⟩ =
        some (t.answer .reluctant 64 1, ⟨.empty, []⟩) :=
      SigningTask.signRound_apply (SigningTask.inRange_ofSecretKey hexpand)
        (Poly.isSome_challenge_repeating _ _) []
    have hp : t.answer .reluctant 64 1 = some p := hp
    rw [hp] at hrun
    obtain ⟨⟨c, -, hhint, -⟩, hverifier⟩ := hround _ .standard _ _ _ _ _ _ _ p hkey hrun
    obtain ⟨c', -, -, hrecover⟩ := hverifier _ keys events hgen rfl
    exact ⟨keys, _, _, p, ⟨_, hhint⟩, _, hrecover⟩

end LatticeSignature
