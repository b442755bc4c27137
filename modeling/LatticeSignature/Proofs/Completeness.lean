import LatticeSignature.Proofs.KeyPair
import LatticeSignature.Proofs.Signing
import LatticeSignature.Proofs.Verification

/-!
# Completeness

Whatever the two extendable-output functions are, a signature made with a generated secret key is
accepted under the public key that was generated with it.

* `Matrix.product_add_mul`: the matrix product is linear.
* **`verifierSide_eq`**: for a generated key pair, `A z - c t1 2^13 = A y - c s2 + c t0`.
* `accepts_of_answer`: the answer of a signing round is an accepted signature.
* `Standard.fresh_verify_of_sign`, `Legacy.fresh_verify_of_sign`: a signature and its verification.
* **`verify_sign`**.
-/

namespace LatticeSignature

/-! ## The algebra -/

theorem Rq.element_centred (a : Rq) : a.centred.element = a := by
  refine Rq.ext (funext fun j => ?_)
  rw [Poly.coeff_element, Residue.cls, Rq.toInt_centred, ZMod.coe_valMinAbs]

theorem Matrix.product_add_mul (A : Matrix) (x y : Fin 7 → Rq) (c : Rq) (i : Fin 8) :
    A.product (fun j => x j + c * y j) i = A.product x i + c * A.product y i := by
  unfold Matrix.product
  rw [Finset.mul_sum, ← Finset.sum_add_distrib]
  exact Finset.sum_congr rfl fun j _ => by ring

/-- **The verifier's side**: what a verifier computes differs from `A y` by small elements. -/
theorem verifierSide_eq {A : Matrix} {c : Rq} {s1 y : Fin 7 → Rq} {s2 t1 t0 : Fin 8 → Rq}
    (ht : ∀ i, 8192 * t1 i + t0 i = A.product s1 i + s2 i) (i : Fin 8) :
    verifierSide A c t1 (fun j => y j + c * s1 j) i = A.product y i - c * s2 i + c * t0 i := by
  have hlow : 8192 * t1 i = A.product s1 i + s2 i - t0 i := eq_sub_of_add_eq (ht i)
  rw [verifierSide, Matrix.product_add_mul, hlow]
  ring

/-! ## Answers are accepted -/

section Answer

variable {O : Oracle} {v : Variant} {rho key : ByteString 32} {A A' : Matrix} {s1 : PolyVec .plain 7}
  {s2 : PolyVec .plain 8} {frame message randomness : Bytes} {m : ℕ}
  {p : SignatureParts v.challengeBytes}

theorem recovered_of_acceptable {y : PolyVec .plain 7} {c : Poly .plain} {t : PolyVec.Parts 8}
    (ht : ∀ i, 8192 * t.high.element i + t.low.element i = A.product s1.element i + s2.element i)
    (hacc : (Round.ofKey A s1 s2 t.low y c).Acceptable) :
    (recovered (verifierSide A c.element t.high.element
        (Round.ofKey A s1 s2 t.low y c).centredResponse.element)
        fun i j => (Round.ofKey A s1 s2 t.low y c).hint.number i j ≠ 0) =
      fun i => (A.product y.element i).highBits := by
  have hz : (Round.ofKey A s1 s2 t.low y c).centredResponse.element =
      fun j => y.element j + c.element * s1.element j := by
    funext i
    rw [PolyVec.element, Round.get_centredResponse, Rq.element_centred]
    rfl
  funext i j
  rw [recovered, hz, verifierSide_eq ht]
  exact (Rounding.corrected_congr (Round.number_hint_ne_zero_iff _ i j)).trans
    (Round.corrected_hint hacc.low_lt hacc.missing_lt i j)

/-- **The answer of a signing round is an accepted signature.** -/
theorem accepts_of_answer (hA : Matrix.expand O rho.bytes = some A) (h1 : s1.Within (-2) 2)
    (h2 : s2.Within (-2) 2)
    (hp : (SigningTask.ofSecretKey O (KeyPair.keysOf O v rho key A s1 s2).secretKey frame message
      randomness A).answer O v.challengeBytes m = some p) :
    SamplersStop O v p.encode.bytes (KeyPair.keysOf O v rho key A s1 s2).publicKey.bytes ∧
      Accepts O v p.encode.bytes frame message (KeyPair.keysOf O v rho key A s1 s2).publicKey.bytes := by
  have hA0 := Matrix.within_expand hA
  have hpk := KeyPair.decode_publicKey O v rho key hA0 h1 h2
  have hsk := KeyPair.decode_secretKey O v rho key hA0 h1 h2
  obtain ⟨keys, hkeys⟩ : ∃ keys, keys = KeyPair.keysOf O v rho key A s1 s2 := ⟨_, rfl⟩
  rw [← hkeys] at hpk hsk hp ⊢
  obtain ⟨c, hc, hacc, rfl⟩ := SigningTask.answer_eq_some_iff.1 hp
  obtain ⟨t, ht⟩ : ∃ t, t = SigningTask.ofSecretKey O keys.secretKey frame message randomness A :=
    ⟨_, rfl⟩
  rw [← ht] at hc hacc ⊢
  have hround : t.round O m c = Round.ofKey A s1 s2 (publicVector A s1 s2).low (t.mask O m) c := by
    rw [SigningTask.round, ht, SigningTask.ofSecretKey, hsk]
  have hd : SignatureParts.decode? v.challengeBytes (t.parts O v.challengeBytes m c).encode.bytes =
      some (t.parts O v.challengeBytes m c) :=
    SignatureParts.decode?_encode hacc.within_centredResponse (Round.hint_zero_or_one _)
      ((Round.total_hint _).trans_le hacc.hintCount_le)
  have hseed : keys.publicKey.bytes.take 32 = rho.bytes :=
    congrArg (fun q : PublicParts => q.rho.bytes) hpk
  have hhash : (t.parts O v.challengeBytes m c).encode.bytes.take v.challengeBytes =
      (t.challengeHash O v.challengeBytes m).bytes :=
    (SignatureParts.decode?_eq_some_iff.1 hd).2.2.1.symm
  have hA' : Matrix.expand O (keys.publicKey.bytes.take 32) = some A := hseed ▸ hA
  have hc' : Poly.challenge O ((t.parts O v.challengeBytes m c).encode.bytes.take v.challengeBytes) =
      some c := hhash ▸ hc
  have hmu : representative O v frame message keys.publicKey.bytes = t.mu := by
    rw [representative, ht, SigningTask.ofSecretKey, hsk]
  refine ⟨fun _ _ => ⟨by rw [hA']; rfl, by rw [hc']; rfl⟩, ?_⟩
  rw [accepts_iff_of_decode hd rfl hA' hc', hmu, hpk]
  constructor
  · intro i j
    change |((t.round O m c).centredResponse.number i j).toInt| < _
    rw [Round.toInt_centredResponse]
    exact hacc.response_lt i j
  · have hvector := recovered_of_acceptable (element_publicVector hA0 h1 h2) (hround ▸ hacc)
    change O.shake256.squeeze (t.mu.bytes ++ encodeHigh (recovered (verifierSide A c.element
      (publicVector A s1 s2).high.element (t.round O m c).centredResponse.element)
        fun i j => (t.round O m c).hint.number i j ≠ 0)) v.challengeBytes = _
    rw [hround, hvector, SigningTask.parts, SigningTask.challengeHash]
    rw [ht]
    rfl

end Answer

/-! ## Signatures are accepted -/

variable {O : Oracle} {v : Variant} {seed : ByteString 32} {keys : KeyPair v}
  {frame message randomness : Bytes}

theorem verifyFramed_of_signFramed {events later : List Event} {signature : Signature v} {h : Hasher}
    (hgen : (KeyPair.generate O v seed).fresh = some (keys, events))
    (hsign : signFramed O v keys.secretKey frame message randomness ⟨.empty, []⟩ =
      some (signature, ⟨h, later⟩)) :
    ∃ log, verifyFramed O v signature.bytes frame message keys.publicKey.bytes ⟨.empty, []⟩ =
      some (true, ⟨.empty, log⟩) := by
  obtain ⟨A, s1, s2, hA, h1, h2, rfl⟩ := KeyPair.exists_of_generate hgen
  have h1 := PolyVec.within_uniformEta h1
  have h2 := PolyVec.within_uniformEta h2
  obtain ⟨A', m, p, hA', hp, rfl⟩ := SigningTask.exists_answer_of_signFramed hsign
  -- the signer finds the same matrix again
  rw [KeyPair.decode_secretKey _ _ _ _ (Matrix.within_expand hA) h1 h2] at hA'
  obtain rfl := Option.some_inj.1 (hA.symm.trans hA')
  obtain ⟨hstop, haccepts⟩ := accepts_of_answer hA h1 h2 hp
  obtain ⟨accepted, log, hrun, hiff⟩ := verifyFramed_apply hstop frame message []
  rw [hiff.2 haccepts] at hrun
  exact ⟨_, hrun⟩

theorem Standard.fresh_verify_of_sign {keys : KeyPair .standard} {context : Bytes}
    {randomness : ByteString 32} {events later : List Event} {result : Except Error (Signature .standard)}
    (hctx : context.length ≤ 255) (hgen : (KeyPair.generate O .standard seed).fresh = some (keys, events))
    (hsign : (Standard.sign O keys.secretKey message context randomness).fresh = some (result, later)) :
    ∃ signature log, result = .ok signature ∧
      (Standard.verify O signature.bytes message context keys.publicKey.bytes).fresh = some (true, log) := by
  obtain ⟨h, hrun⟩ := Protocol.fresh_eq_some_iff.1 hsign
  rw [Standard.sign_apply hctx, Option.map_eq_some_iff] at hrun
  obtain ⟨⟨signature, h', later'⟩, hframed, heq⟩ := hrun
  obtain ⟨log, hverify⟩ := verifyFramed_of_signFramed hgen hframed
  have hle : ¬Params.maxContextBytes < context.length := not_lt.2 hctx
  refine ⟨signature, log, (Prod.mk.inj heq).1.symm, Protocol.fresh_of_apply (h := .empty) ?_⟩
  rw [Standard.verify, if_neg hle]
  exact hverify

theorem Legacy.fresh_verify_of_sign {keys : KeyPair .legacy} {events later : List Event}
    {signature : Signature .legacy}
    (hgen : (KeyPair.generate O .legacy seed).fresh = some (keys, events))
    (hsign : (Legacy.sign O keys.secretKey message).fresh = some (signature, later)) :
    ∃ log, (Legacy.verify O signature.bytes message keys.publicKey.bytes).fresh = some (true, log) := by
  obtain ⟨h, hrun⟩ := Protocol.fresh_eq_some_iff.1 hsign
  obtain ⟨log, hverify⟩ := verifyFramed_of_signFramed hgen hrun
  exact ⟨log, Protocol.fresh_of_apply hverify⟩

/-! ## Runs over streams of one byte -/

/-- Every coefficient of the secrets is 2, and a signature takes two rounds. -/
theorem exists_answer_reluctant (v : Variant) (seed : ByteString 32) (frame message randomness : Bytes) :
    ∃ keys events, (KeyPair.generate .reluctant v seed).fresh = some (keys, events) ∧
      let t := SigningTask.ofSecretKey .reluctant keys.secretKey frame message randomness
        (.flat 0x323232)
      t.answer .reluctant v.challengeBytes 0 = none ∧
        ∃ p, t.answer .reluctant v.challengeBytes 1 = some p := by
  have hA0 := Matrix.within_expand (Matrix.expand_repeating (fun _ => false) [])
  have hflat (n : ℕ) : (PolyVec.flat 2 : PolyVec .plain n).Within (-2) 2 :=
    PolyVec.within_flat (by decide) (by decide)
  have hgen := KeyPair.generate_apply (O := .reluctant) (v := v) seed (Matrix.expand_repeating ..)
    (PolyVec.uniformEta_repeating ..) (PolyVec.uniformEta_repeating ..) []
  have hsk := KeyPair.decode_secretKey .reluctant v (KeyPair.matrixSeed .reluctant v seed)
    (KeyPair.maskSeed .reluctant v seed) hA0 (hflat 7) (hflat 8)
  obtain ⟨keys, hkeys⟩ : ∃ keys, keys = KeyPair.keysOf .reluctant v (KeyPair.matrixSeed .reluctant v seed)
    (KeyPair.maskSeed .reluctant v seed) (.flat 0x323232) (.flat 2) (.flat 2) := ⟨_, rfl⟩
  rw [← hkeys] at hgen hsk
  refine ⟨keys, _, Protocol.fresh_of_apply hgen, ?_⟩
  intro t
  have hacceptable (n : ℕ) : t.Acceptable .reluctant v.challengeBytes n ↔
      ∀ i : Fin 7, 7 ≤ (7 * n + i.val) % 256 := by
    refine SigningTask.acceptable_reluctant_iff rfl ?_ ?_ ?_ <;> unfold t SigningTask.ofSecretKey <;>
      rw [hsk]
    · exact hflat 7
    · exact hflat 8
    · exact within_publicVector_low hA0 (hflat 7) (hflat 8)
  constructor
  · rw [SigningTask.answer_eq_none_iff, hacceptable]
    decide
  · rw [← Option.isSome_iff_exists, ← SigningTask.acceptable_iff_isSome, hacceptable]
    decide

theorem exists_signFramed_reluctant (v : Variant) (seed : ByteString 32)
    (frame message randomness : Bytes) :
    ∃ keys events signature, (KeyPair.generate .reluctant v seed).fresh = some (keys, events) ∧
      signFramed .reluctant v keys.secretKey frame message randomness ⟨.empty, []⟩ =
        some (signature, ⟨.empty, [.signatureAccepted 2]⟩) := by
  obtain ⟨keys, events, hgen, hnone, p, hp⟩ :=
    exists_answer_reluctant v seed frame message randomness
  have hexpand : Matrix.expand .reluctant (SecretParts.decode keys.secretKey).rho.bytes =
      some (.flat 0x323232) := Matrix.expand_repeating ..
  have hloop := SigningTask.signRounds_of_first (SigningTask.inRange_ofSecretKey hexpand)
    (fun m => Poly.isSome_challenge_repeating _ _) hp
    (fun k _ hk => Nat.lt_one_iff.1 hk ▸ hnone) (Nat.zero_le 1) (by norm_num : 1 < 0 + 65536) []
  refine ⟨keys, events, p.encode, hgen, ?_⟩
  rw [SigningTask.signFramed_apply _ _ _ hexpand, hloop]
  rfl

theorem Standard.exists_sign_reluctant (seed : ByteString 32) (message : Bytes) {context : Bytes}
    (randomness : ByteString 32) (hctx : context.length ≤ 255) :
    ∃ keys events signature,
      (KeyPair.generate .reluctant .standard seed).fresh = some (keys, events) ∧
      (Standard.sign .reluctant keys.secretKey message context randomness).fresh =
        some (.ok signature, [.signatureAccepted 2]) := by
  obtain ⟨keys, events, signature, hgen, hsign⟩ :=
    exists_signFramed_reluctant .standard seed (Standard.frame context) message randomness.bytes
  refine ⟨keys, events, signature, hgen, Protocol.fresh_of_apply (h := .empty) ?_⟩
  rw [Standard.sign_apply hctx, hsign]
  rfl

/-- **Completeness**: for any two extendable-output functions, whatever is signed with a generated
secret key is accepted under its public key, in both variants. -/
theorem verify_sign (O : Oracle) (seed : ByteString 32) (message context : Bytes)
    (randomness : ByteString 32) :
    (∀ keys events result later, context.length ≤ 255 →
      (KeyPair.generate O .standard seed).fresh = some (keys, events) →
      (Standard.sign O keys.secretKey message context randomness).fresh = some (result, later) →
      ∃ signature log, result = .ok signature ∧
        (Standard.verify O signature.bytes message context keys.publicKey.bytes).fresh =
          some (true, log)) ∧
    ∀ keys events signature later,
      (KeyPair.generate O .legacy seed).fresh = some (keys, events) →
      (Legacy.sign O keys.secretKey message).fresh = some (signature, later) →
      ∃ log, (Legacy.verify O signature.bytes message keys.publicKey.bytes).fresh =
        some (true, log) :=
  ⟨fun _ _ _ _ => Standard.fresh_verify_of_sign, fun _ _ _ _ => Legacy.fresh_verify_of_sign⟩

theorem verify_sign_reluctant :
    (∃ keys events signature log,
      (KeyPair.generate .reluctant .standard (.zero 32)).fresh = some (keys, events) ∧
      (Standard.sign .reluctant keys.secretKey [1, 2, 3] [7] (.zero 32)).fresh =
        some (.ok signature, [.signatureAccepted 2]) ∧
      (Standard.verify .reluctant signature.bytes [1, 2, 3] [7] keys.publicKey.bytes).fresh =
        some (true, log)) ∧
    ∃ keys events signature log,
      (KeyPair.generate .reluctant .legacy (.zero 32)).fresh = some (keys, events) ∧
      (Legacy.sign .reluctant keys.secretKey [1, 2, 3]).fresh =
        some (signature, [.signatureAccepted 2]) ∧
      (Legacy.verify .reluctant signature.bytes [1, 2, 3] keys.publicKey.bytes).fresh =
        some (true, log) := by
  constructor
  · have hctx : ([7] : Bytes).length ≤ 255 := by decide
    obtain ⟨keys, events, signature, hgen, hsign⟩ :=
      Standard.exists_sign_reluctant (.zero 32) [1, 2, 3] (.zero 32) hctx
    obtain ⟨_, log, heq, hverify⟩ := (verify_sign .reluctant (.zero 32) [1, 2, 3] [7] (.zero 32)).1 keys
      events _ _ hctx hgen hsign
    obtain rfl := Except.ok.inj heq
    exact ⟨keys, events, signature, log, hgen, hsign, hverify⟩
  · obtain ⟨keys, events, signature, hgen, hsign⟩ :=
      exists_signFramed_reluctant .legacy (.zero 32) [] [1, 2, 3] []
    have hrun := Protocol.fresh_of_apply (p := Legacy.sign .reluctant keys.secretKey [1, 2, 3]) hsign
    obtain ⟨log, hverify⟩ := (verify_sign .reluctant (.zero 32) [1, 2, 3] [] (.zero 32)).2 keys events
      signature _ hgen hrun
    exact ⟨keys, events, signature, log, hgen, hrun, hverify⟩

end LatticeSignature
