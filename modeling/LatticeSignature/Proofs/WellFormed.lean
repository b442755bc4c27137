import LatticeSignature.Proofs.Completeness

/-!
# Well-formed signatures

The tests of a signing round are made on representatives that any secret key may have led to, and the
packed form of a signature keeps only the low bits of what it is given. A round that passes its tests
gives nothing that the packed form would lose.

* `SignatureParts.WellFormed`: a response that passes the norm test, and a hint of at most 75 ones.
* **`SigningTask.exists_last_round`**: the loop answers what its last round answers.
* **`SigningTask.wellFormed_of_signRound`**: what a round answers is well formed.
* **`sign_wellFormed`**: a signature decodes to exactly the parts that the last round answered.
-/

namespace LatticeSignature

namespace SignatureParts

variable {c : ℕ} {p : SignatureParts c}

/-- **What a signer may give away**: a response within the bound of the norm test, and a hint of zeros
and at most 75 ones. -/
structure WellFormed (p : SignatureParts c) : Prop where
  response_lt : ∀ i j, |(p.z.number i j).toInt| < 524288 - 120
  hint_zero_or_one : ∀ i j, p.hint.number i j = 0 ∨ p.hint.number i j = 1
  ones_le : (Finset.univ.filter fun x : Fin 8 × Fin 256 => p.hint.number x.1 x.2 = 1).card ≤ 75

theorem WellFormed.inRange (h : p.WellFormed) : p.InRange := by
  refine ⟨fun i j => ?_, h.hint_zero_or_one, h.ones_le⟩
  have hlt := abs_lt.1 (h.response_lt i j)
  rw [← PolyVec.number]
  omega

theorem WellFormed.decode?_encode (h : p.WellFormed) : decode? c p.encode.bytes = some p :=
  SignatureParts.decode?_encode h.inRange.z_within h.hint_zero_or_one h.inRange.total_hint_le

end SignatureParts

theorem Round.Acceptable.wellFormed {r : Round} {c : ℕ} (h : r.Acceptable) (hash : ByteString c) :
    SignatureParts.WellFormed ⟨hash, r.centredResponse, r.hint⟩ := by
  refine ⟨fun i j => ?_, r.hint_zero_or_one, ?_⟩
  · change |(r.centredResponse.number i j).toInt| < _
    rw [Round.toInt_centredResponse]
    exact h.response_lt i j
  · have htotal : r.hint.total ≤ 75 := (Round.total_hint r).trans_le h.hintCount_le
    have hcard := SignatureParts.total_hint_eq_card (p := ⟨hash, r.centredResponse, r.hint⟩)
      r.hint_zero_or_one
    exact hcard.symm.trans_le htotal

namespace SigningTask

variable {O : Oracle} {t : SigningTask} {length : ℕ}

/-! ## The rounds of the loop -/

theorem signRound_session {k : SigningKey} {mu rhoPrime : ByteString 64} {nonce : UInt16}
    {events : List Event} {r : Option (SignatureParts length)} {s : Session}
    (h : signRound O length k mu rhoPrime nonce ⟨.empty, events⟩ = some (r, s)) : s = ⟨.empty, events⟩ := by
  unfold signRound at h
  rw [Protocol.bind_of_apply (Protocol.hash_apply ..)] at h
  obtain ⟨c, s', hc, h⟩ := Protocol.bind_eq_some_iff.1 h
  obtain ⟨-, rfl⟩ := Protocol.ofOption_eq_some_iff.1 hc
  exact (Prod.mk.inj (Option.some_inj.1 h)).2.symm

/-- **Round `n` is the last**: it answers with `p`, and no round before it answers. -/
structure LastRound (O : Oracle) (t : SigningTask) (n : ℕ) (p : SignatureParts length) : Prop where
  earlier : ∀ m < n, (signRound O length t.key t.mu t.rhoPrime m.toUInt16).fresh = some (none, [])
  answer : (signRound O length t.key t.mu t.rhoPrime n.toUInt16).fresh = some (some p, [])

/-- **The loop answers what its last round answers**, and reports its number. -/
theorem exists_last_round {fuel first : ℕ} {p : SignatureParts length} {s : Session}
    (hfirst : ∀ m < first, (signRound O length t.key t.mu t.rhoPrime m.toUInt16).fresh = some (none, []))
    (h : signRounds O length t.key t.mu t.rhoPrime fuel first ⟨.empty, []⟩ = some (p, s)) :
    ∃ n < first + fuel, LastRound O t n p ∧ s = ⟨.empty, [.signatureAccepted (n + 1)]⟩ := by
  induction fuel generalizing first with
  | zero => exact absurd h (by simp [signRounds])
  | succ fuel ih =>
    obtain ⟨r, s', hr, h⟩ := Protocol.bind_eq_some_iff.1 h
    obtain rfl := signRound_session hr
    have hround := Protocol.fresh_of_apply hr
    cases r with
    | some q =>
      obtain ⟨rfl, rfl⟩ := Prod.mk.inj (Option.some_inj.1 h)
      exact ⟨first, by omega, ⟨hfirst, hround⟩, rfl⟩
    | none =>
      have hnext : ∀ m < first + 1,
          (signRound O length t.key t.mu t.rhoPrime m.toUInt16).fresh = some (none, []) := by
        intro m hm
        rcases Nat.lt_succ_iff_lt_or_eq.1 hm with hlt | rfl
        · exact hfirst m hlt
        · exact hround
      obtain ⟨n, hn, hlast⟩ := ih hnext h
      exact ⟨n, by omega, hlast⟩

theorem wellFormed_of_signRound (ht : t.InRange) {n : ℕ} {p : SignatureParts length}
    {events : List Event}
    (h : (signRound O length t.key t.mu t.rhoPrime n.toUInt16).fresh = some (some p, events)) :
    p.WellFormed := by
  obtain ⟨hasher, hrun⟩ := Protocol.fresh_eq_some_iff.1 h
  rw [signRound_apply ht (isSome_challenge_of_signRound ht hrun)] at hrun
  obtain ⟨c, -, hacc, rfl⟩ := answer_eq_some_iff.1 (Prod.mk.inj (Option.some_inj.1 hrun)).1
  exact hacc.wellFormed _

/-! ## Signatures -/

/-- **A signature holds the answer of the last round**, and decodes to it. -/
theorem wellFormed_of_signFramed {v : Variant} {sk : SecretKey v} {frame message randomness : Bytes}
    {signature : Signature v} {s : Session}
    (h : signFramed O v sk frame message randomness ⟨.empty, []⟩ = some (signature, s)) :
    ∃ A n p, Matrix.expand O (SecretParts.decode sk).rho.bytes = some A ∧ n < 65536 ∧
      LastRound O (ofSecretKey O sk frame message randomness A) n p ∧
      s = ⟨.empty, [.signatureAccepted (n + 1)]⟩ ∧ signature = p.encode ∧
      SignatureParts.decode? v.challengeBytes signature.bytes = some p ∧ p.WellFormed := by
  obtain ⟨A, -, -, hA, -⟩ := exists_answer_of_signFramed h
  rw [signFramed_apply frame message randomness hA, Option.map_eq_some_iff] at h
  obtain ⟨⟨p, s'⟩, hrun, heq⟩ := h
  obtain ⟨rfl, rfl⟩ := Prod.mk.inj heq
  obtain ⟨n, hn, hlast, rfl⟩ := exists_last_round (fun m hm => absurd hm (Nat.not_lt_zero m)) hrun
  have hp := wellFormed_of_signRound (inRange_ofSecretKey hA) hlast.answer
  exact ⟨A, n, p, hA, by omega, hlast, rfl, rfl, hp.decode?_encode, hp⟩

end SigningTask

/-- **Every signature is well formed**, whatever bytes the secret key consists of, in both variants: it
decodes, with a response below the bound of the norm test and a hint of at most 75 ones, and to exactly
what the last signing round answered. -/
theorem sign_wellFormed (O : Oracle) :
    (∀ (sk : SecretKey .standard) message context randomness result events, context.length ≤ 255 →
      (Standard.sign O sk message context randomness).fresh = some (result, events) →
      ∃ signature A n p, result = .ok signature ∧
        Matrix.expand O (SecretParts.decode sk).rho.bytes = some A ∧
        (SigningTask.ofSecretKey O sk (Standard.frame context) message randomness.bytes A).LastRound O n p ∧
        events = [.signatureAccepted (n + 1)] ∧
        SignatureParts.decode? 64 signature.bytes = some p ∧ p.WellFormed) ∧
    ∀ (sk : SecretKey .legacy) message signature events,
      (Legacy.sign O sk message).fresh = some (signature, events) →
      ∃ A n p, Matrix.expand O (SecretParts.decode sk).rho.bytes = some A ∧
        (SigningTask.ofSecretKey O sk [] message [] A).LastRound O n p ∧
        events = [.signatureAccepted (n + 1)] ∧
        SignatureParts.decode? 32 signature.bytes = some p ∧ p.WellFormed := by
  constructor
  · intro sk message context randomness result events hctx h
    obtain ⟨hasher, hrun⟩ := Protocol.fresh_eq_some_iff.1 h
    rw [Standard.sign_apply hctx, Option.map_eq_some_iff] at hrun
    obtain ⟨⟨signature, s⟩, hframed, heq⟩ := hrun
    obtain ⟨A, n, p, hA, -, hlast, rfl, -, hdecode, hp⟩ := SigningTask.wellFormed_of_signFramed hframed
    obtain ⟨rfl, hsession⟩ := Prod.mk.inj heq
    exact ⟨signature, A, n, p, rfl, hA, hlast, (congrArg Session.events hsession).symm, hdecode, hp⟩
  · intro sk message signature events h
    obtain ⟨hasher, hrun⟩ := Protocol.fresh_eq_some_iff.1 h
    obtain ⟨A, n, p, hA, -, hlast, hsession, -, hdecode, hp⟩ := SigningTask.wellFormed_of_signFramed hrun
    exact ⟨A, n, p, hA, hlast, congrArg Session.events hsession, hdecode, hp⟩

theorem sign_wellFormed_reluctant :
    (∃ (sk : SecretKey .standard) (signature : Signature .standard) (p : SignatureParts 64),
      (Standard.sign .reluctant sk [1, 2, 3] [7] (.zero 32)).fresh =
          some (.ok signature, [.signatureAccepted 2]) ∧
        SignatureParts.decode? 64 signature.bytes = some p ∧ p.WellFormed) ∧
    ∃ (sk : SecretKey .legacy) (signature : Signature .legacy) (p : SignatureParts 32),
      (Legacy.sign .reluctant sk [1, 2, 3]).fresh = some (signature, [.signatureAccepted 2]) ∧
        SignatureParts.decode? 32 signature.bytes = some p ∧ p.WellFormed := by
  constructor
  · have hctx : ([7] : Bytes).length ≤ 255 := by decide
    obtain ⟨keys, -, signature, -, hrun⟩ :=
      Standard.exists_sign_reluctant (.zero 32) [1, 2, 3] (.zero 32) hctx
    obtain ⟨_, A, n, p, heq, -, -, -, hdecode, hp⟩ :=
      (sign_wellFormed .reluctant).1 keys.secretKey [1, 2, 3] [7] (.zero 32) _ _ hctx hrun
    obtain rfl := Except.ok.inj heq
    exact ⟨_, _, p, hrun, hdecode, hp⟩
  · obtain ⟨keys, -, signature, -, hsign⟩ :=
      exists_signFramed_reluctant .legacy (.zero 32) [] [1, 2, 3] []
    have hrun := Protocol.fresh_of_apply (p := Legacy.sign .reluctant keys.secretKey [1, 2, 3]) hsign
    obtain ⟨A, n, p, -, -, -, hdecode, hp⟩ :=
      (sign_wellFormed .reluctant).2 keys.secretKey [1, 2, 3] signature _ hrun
    exact ⟨_, _, p, hrun, hdecode, hp⟩

end LatticeSignature
