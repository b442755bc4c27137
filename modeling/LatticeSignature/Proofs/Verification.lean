import LatticeSignature.Proofs.Commitment
import LatticeSignature.Proofs.Layout
import LatticeSignature.Proofs.Protocol
import LatticeSignature.Proofs.Sampler

/-!
# What verification accepts

* `ChallengeAgrees`: the challenge hash is the hash of the high bits of `A z - c t1 2^13`, corrected by
  the hint, in exact ring arithmetic.
* `Accepts`: lengths, canonical hint section, response in range, and a challenge hash that agrees.
* `SamplersStop`: the samplers find the matrix and the challenge of a well-formed input.
* **`verifyFramed_apply`**: a check ends with an answer, and the answer says whether the input is
  accepted.
* `constantParts`: a signature that is accepted under streams of one byte.
* `Standard.fresh_verify`, `Legacy.fresh_verify`, **`verify_iff_accepts`**: the same for both variants.
-/

namespace LatticeSignature

/-! ## The parts of the input -/

/-- The section of a signature that lists its hint. -/
def hintSection (v : Variant) (signature : Bytes) : Bytes :=
  (signature.drop (4480 + v.challengeBytes)).take 83

/-- The response that a signature holds. -/
def responseOf (v : Variant) (signature : Bytes) : PolyVec .plain 7 :=
  PolyVec.unpack .z 7 v.challengeBytes signature

/-- The high part of the public vector that a public key holds. -/
def publicHighOf (publicKey : Bytes) : PolyVec .plain 8 := PolyVec.unpack .t1 8 32 publicKey

/-- The message representative: the hash of the public key hash, the frame and the message. -/
def representative (O : Oracle) (v : Variant) (frame message publicKey : Bytes) : ByteString 64 :=
  O.shake256.squeeze ((O.shake256.squeeze publicKey v.trBytes).bytes ++ frame ++ message) 64

/-- The high bits that a verifier recovers from the parts of a signature. -/
noncomputable def recoveredHigh (v : Variant) (A : Matrix) (c : Poly .plain)
    (signature publicKey : Bytes) : Fin 8 → Fin 256 → ℤ :=
  recovered
    (verifierSide A c.element (publicHighOf publicKey).element (responseOf v signature).element)
    fun i j => j.val.toUInt8 ∈ Hint.row (hintSection v signature) i

/-- The challenge hash of a signature is the hash of the high bits that a verifier recovers. -/
def ChallengeAgrees (O : Oracle) (v : Variant) (signature frame message publicKey : Bytes) : Prop :=
  ∃ A c, Matrix.expand O (publicKey.take 32) = some A ∧
    Poly.challenge O (signature.take v.challengeBytes) = some c ∧
    signature.take v.challengeBytes =
      (O.shake256.squeeze ((representative O v frame message publicKey).bytes ++
        encodeHigh (recoveredHigh v A c signature publicKey)) v.challengeBytes).bytes

/-- **What is accepted** as a signature of `message` behind `frame`. -/
structure Accepts (O : Oracle) (v : Variant) (signature frame message publicKey : Bytes) : Prop where
  length_signature : signature.length = 4563 + v.challengeBytes
  length_publicKey : publicKey.length = 2592
  canonical_hint : Hint.Canonical (hintSection v signature)
  response_lt : ∀ (i : Fin 7) (j : Fin 256), |((responseOf v signature).number i j).toInt| < 524288 - 120
  challenge_agrees : ChallengeAgrees O v signature frame message publicKey

/-- The samplers find the matrix and the challenge, if there are any. -/
def SamplersStop (O : Oracle) (v : Variant) (signature publicKey : Bytes) : Prop :=
  signature.length = 4563 + v.challengeBytes → publicKey.length = 2592 →
    (Matrix.expand O (publicKey.take 32)).isSome ∧
      (Poly.challenge O (signature.take v.challengeBytes)).isSome

/-! ## The check of parts -/

theorem responseBelow_iff {z : PolyVec .plain 7} (hz : z.Within (-524288) 524288) :
    z.normBelow (Params.gamma1 - Params.beta) = true ↔
      ∀ (i : Fin 7) (j : Fin 256), |(z.number i j).toInt| < 524288 - 120 := by
  rw [PolyVec.normBelow_iff]
  have hrow : ∀ i : Fin 7, (z.get i).normBelow (Params.gamma1 - Params.beta) = true ↔ _ := fun i =>
    Poly.normBelow_iff ((hz i).mono (by norm_num) (by norm_num)) (by decide) (by decide)
  simp only [hrow, toInt_responseBound]

theorem reject_apply (cause : Rejection) (h : Hasher) (events : List Event) :
    reject cause ⟨h, events⟩ = some (false, ⟨h, events ++ [.rejected cause]⟩) := rfl

section Parts

variable {O : Oracle} {c : Nat} {parts : SignatureParts c} {publicKey : PublicKey} {A : Matrix}
  {challenge : Poly .plain}

/-- **The check of the parts of a signature.** -/
theorem verifyParts_apply (hz : parts.z.Within (-524288) 524288)
    (hA : Matrix.expand O (PublicParts.decode publicKey).rho.bytes = some A)
    (hc : Poly.challenge O parts.challenge.bytes = some challenge) (mu : ByteString 64)
    (events : List Event) :
    ∃ accepted later, verifyParts O parts publicKey mu ⟨.empty, events⟩ =
        some (accepted, ⟨.empty, events ++ later⟩) ∧
      (accepted = true ↔
        (∀ (i : Fin 7) (j : Fin 256), |(parts.z.number i j).toInt| < 524288 - 120) ∧
          O.shake256.squeeze (mu.bytes ++ encodeHigh (recovered
            (verifierSide A challenge.element (PublicParts.decode publicKey).t1.element
              parts.z.element) fun i j => parts.hint.number i j ≠ 0)) c = parts.challenge) := by
  by_cases hb : parts.z.normBelow (Params.gamma1 - Params.beta) = true
  swap
  · refine ⟨false, [.rejected .responseOutOfRange], ?_, ?_⟩
    · rw [verifyParts, if_neg hb]
      rfl
    · exact ⟨fun h => absurd h (by simp), fun h => absurd ((responseBelow_iff hz).2 h.1) hb⟩
  have hw := bytes_pack_recoverHigh (Matrix.within_expand hA) (Poly.within_challenge hc)
    (PublicParts.within_t1_decode publicKey) hz parts.hint
  have hrun : verifyParts O parts publicKey mu ⟨.empty, events⟩ =
      (if O.shake256.squeeze (mu.bytes ++ encodeHigh (recovered
          (verifierSide A challenge.element (PublicParts.decode publicKey).t1.element
            parts.z.element) fun i j => parts.hint.number i j ≠ 0)) c = parts.challenge
        then return true else reject .challengeMismatch : Protocol Bool)
        ⟨.empty, events ++ [.signatureDecoded parts.hint.weight]⟩ := by
    rw [verifyParts, if_pos hb, Protocol.bind_of_apply (Protocol.report_apply ..)]
    simp only [hA, hc]
    rw [Protocol.bind_of_apply (Protocol.ofOption_some ..),
      Protocol.bind_of_apply (Protocol.ofOption_some ..),
      Protocol.bind_of_apply (Protocol.hash_apply ..), hw, List.flatten_cons, List.flatten_cons,
      List.flatten_nil, List.append_nil]
  rw [hrun]
  split
  · rename_i heq
    exact ⟨true, [.signatureDecoded parts.hint.weight], rfl,
      fun _ => ⟨(responseBelow_iff hz).1 hb, heq⟩, fun _ => rfl⟩
  · rename_i hne
    refine ⟨false, [.signatureDecoded parts.hint.weight, .rejected .challengeMismatch], ?_, ?_⟩
    · rw [reject_apply, List.append_assoc]
      rfl
    · exact ⟨fun h => absurd h (by simp), fun h => absurd h.2 hne⟩

end Parts

/-! ## The whole check -/

variable {O : Oracle} {v : Variant} {signature frame message publicKey : Bytes}

theorem parseSigned_eq_ok_iff {parts : SignatureParts v.challengeBytes} {pk : PublicKey} :
    parseSigned v signature publicKey = .ok (parts, pk) ↔
      SignatureParts.decode? v.challengeBytes signature = some parts ∧ publicKey = pk.bytes := by
  unfold parseSigned
  by_cases hlen : signature.length = 4563 + v.challengeBytes
  swap
  · rw [if_pos hlen]
    exact ⟨fun h => absurd h (by simp), fun h => absurd (SignatureParts.decode?_eq_some_iff.1 h.1).1 hlen⟩
  rw [if_neg (not_not.2 hlen)]
  cases hpk : ByteString.ofBytes? 2592 publicKey with
  | none =>
    refine ⟨fun h => absurd h (by simp), fun h => ?_⟩
    rw [ByteString.ofBytes?_eq_some_iff.2 h.2] at hpk
    exact absurd hpk (by simp)
  | some pk' =>
    rw [ByteString.ofBytes?_eq_some_iff] at hpk
    subst hpk
    cases hd : SignatureParts.decode? v.challengeBytes signature with
    | none => simp
    | some parts' => simp [ByteString.ext_iff]

theorem squeeze_eq_representative (O : Oracle) (v : Variant) (frame message publicKey : Bytes) :
    O.shake256.squeeze
      [(O.shake256.squeeze [publicKey].flatten v.trBytes).bytes, frame, message].flatten 64 =
        representative O v frame message publicKey := by
  simp [representative]

theorem accepts_iff_of_decode {parts : SignatureParts v.challengeBytes} {pk : PublicKey} {A : Matrix}
    {challenge : Poly .plain} (hd : SignatureParts.decode? v.challengeBytes signature = some parts)
    (hpk : publicKey = pk.bytes) (hA : Matrix.expand O (publicKey.take 32) = some A)
    (hc : Poly.challenge O (signature.take v.challengeBytes) = some challenge) :
    Accepts O v signature frame message publicKey ↔
      (∀ (i : Fin 7) (j : Fin 256), |(parts.z.number i j).toInt| < 524288 - 120) ∧
        O.shake256.squeeze ((representative O v frame message publicKey).bytes ++
          encodeHigh (recovered
            (verifierSide A challenge.element (PublicParts.decode pk).t1.element parts.z.element)
            fun i j => parts.hint.number i j ≠ 0)) v.challengeBytes = parts.challenge := by
  obtain ⟨hlen, hcanonical, hch, hz, hhint⟩ := SignatureParts.decode?_eq_some_iff.1 hd
  have ht1 : (PublicParts.decode pk).t1 = publicHighOf publicKey := by
    rw [hpk]
    rfl
  have hbits : (fun (i : Fin 8) (j : Fin 256) => parts.hint.number i j ≠ 0) =
      fun (i : Fin 8) (j : Fin 256) => j.val.toUInt8 ∈ Hint.row (hintSection v signature) i := by
    funext i j
    rw [hhint, Hint.number_listed]
    split
    · rename_i hmem
      exact propext ⟨fun _ => hmem, fun _ => by decide⟩
    · rename_i hmem
      exact propext ⟨fun h => absurd rfl h, fun h => absurd h hmem⟩
  rw [hbits, ht1, ByteString.ext_iff, hch, hz]
  constructor
  · rintro ⟨-, -, -, hresponse, A', c', hA', hc', heq⟩
    obtain rfl := Option.some_inj.1 (hA.symm.trans hA')
    obtain rfl := Option.some_inj.1 (hc.symm.trans hc')
    exact ⟨hresponse, heq.symm⟩
  · rintro ⟨hresponse, heq⟩
    exact ⟨hlen, hpk ▸ pk.length_eq, hcanonical, hresponse, A, challenge, hA, hc, heq.symm⟩

/-- **A check ends, and its answer is whether the input is accepted.** -/
theorem verifyFramed_apply (hstop : SamplersStop O v signature publicKey) (frame message : Bytes)
    (events : List Event) :
    ∃ accepted later, verifyFramed O v signature frame message publicKey ⟨.empty, events⟩ =
        some (accepted, ⟨.empty, events ++ later⟩) ∧
      (accepted = true ↔ Accepts O v signature frame message publicKey) := by
  unfold verifyFramed
  cases hparse : parseSigned v signature publicKey with
  | error cause =>
    refine ⟨false, [.rejected cause], rfl, fun h => absurd h (by simp), fun h => ?_⟩
    obtain ⟨parts, hd⟩ := Option.isSome_iff_exists.1
      (SignatureParts.isSome_decode? h.length_signature h.canonical_hint)
    let pk : PublicKey := ⟨publicKey, h.length_publicKey⟩
    have hok : parseSigned v signature publicKey = .ok (parts, pk) :=
      parseSigned_eq_ok_iff.2 ⟨hd, rfl⟩
    exact absurd (hparse.symm.trans hok) (by simp)
  | ok found =>
    obtain ⟨parts, pk⟩ := found
    obtain ⟨hd, hpk⟩ := parseSigned_eq_ok_iff.1 hparse
    obtain ⟨hlen, -, hch, -⟩ := SignatureParts.decode?_eq_some_iff.1 hd
    obtain ⟨hA, hc⟩ := hstop hlen (hpk ▸ pk.length_eq)
    obtain ⟨A, hA⟩ := Option.isSome_iff_exists.1 hA
    obtain ⟨challenge, hc⟩ := Option.isSome_iff_exists.1 hc
    have hA' : Matrix.expand O (PublicParts.decode pk).rho.bytes = some A := by
      rw [← hA, hpk]
      rfl
    have hz := SignatureParts.within_z_decode? hd
    obtain ⟨accepted, later, hrun, hiff⟩ := verifyParts_apply (hz.mono (by norm_num) le_rfl) hA'
      (hch ▸ hc) (representative O v frame message publicKey) events
    refine ⟨accepted, later, ?_, hiff.trans (accepts_iff_of_decode hd hpk hA hc).symm⟩
    change (Protocol.hash O [pk.bytes] v.trBytes >>= fun tr =>
      Protocol.hash O [tr.bytes, frame, message] 64 >>= fun mu => verifyParts O parts pk mu) _ = _
    rw [Protocol.bind_of_apply (Protocol.hash_apply ..),
      Protocol.bind_of_apply (Protocol.hash_apply ..), squeeze_eq_representative, ← hpk, hrun]

/-! ## Signatures under streams of one byte -/

theorem samplersStop_repeating (zero : Bytes → Bool) (v : Variant) (signature publicKey : Bytes) :
    SamplersStop (.repeating zero) v signature publicKey := by
  refine fun _ _ => ⟨?_, Poly.isSome_challenge_repeating zero _⟩
  rw [Matrix.expand_repeating]
  rfl

/-- The hash that `Oracle.constant` gives, the largest response that is accepted, and any hint. -/
def constantParts (v : Variant) (hint : PolyVec .plain 8) : SignatureParts v.challengeBytes :=
  ⟨⟨List.replicate v.challengeBytes 0x55, List.length_replicate⟩, .flat 524167, hint⟩

section Constant

variable {hint : PolyVec .plain 8} (h01 : ∀ i j, hint.number i j = 0 ∨ hint.number i j = 1)
  (hw : hint.total ≤ 75)

include h01 hw in
theorem decode?_encode_constantParts :
    SignatureParts.decode? v.challengeBytes (constantParts v hint).encode.bytes =
      some (constantParts v hint) :=
  SignatureParts.decode?_encode (PolyVec.within_flat (by decide) (by decide)) h01 hw

include h01 hw in
/-- It is accepted for every message and under every public key. -/
theorem accepts_constantParts (frame message : Bytes) (publicKey : PublicKey) :
    Accepts .constant v (constantParts v hint).encode.bytes frame message publicKey.bytes := by
  obtain ⟨challenge, hc⟩ := Option.isSome_iff_exists.1 (Poly.isSome_challenge_repeating (fun _ => false)
    ((constantParts v hint).encode.bytes.take v.challengeBytes))
  refine (accepts_iff_of_decode (decode?_encode_constantParts h01 hw) rfl (Matrix.expand_repeating ..)
    hc).2 ⟨fun i j => ?_, ByteString.ext (Oracle.squeeze_repeating ..)⟩
  change |(((PolyVec.flat 524167 : PolyVec .plain 7).get i).number j).toInt| < _
  rw [PolyVec.get_flat, Poly.number_flat]
  decide

end Constant

/-! ## Both variants -/

section Answers

variable {O : Oracle} {signature message context publicKey : Bytes}

theorem Standard.fresh_verify_of_lt (h : 255 < context.length) :
    (Standard.verify O signature message context publicKey).fresh =
      some (false, [.rejected (.contextTooLong context.length)]) := by
  have hlt : Params.maxContextBytes < context.length := h
  refine Protocol.fresh_of_apply (h := .empty) ?_
  rw [Standard.verify, if_pos hlt]
  exact reject_apply _ _ _

theorem Standard.fresh_verify (hstop : SamplersStop O .standard signature publicKey) :
    ∃ accepted events, (Standard.verify O signature message context publicKey).fresh =
        some (accepted, events) ∧
      (accepted = true ↔ context.length ≤ 255 ∧
        Accepts O .standard signature (0 :: context.length.toUInt8 :: context) message publicKey) := by
  by_cases hctx : 255 < context.length
  · exact ⟨_, _, Standard.fresh_verify_of_lt hctx, fun h => absurd h (by simp),
      fun h => absurd hctx (not_lt.2 h.1)⟩
  · have hle : ¬Params.maxContextBytes < context.length := hctx
    obtain ⟨accepted, later, hrun, hiff⟩ := verifyFramed_apply hstop (Standard.frame context) message []
    refine ⟨accepted, [] ++ later, Protocol.fresh_of_apply (h := .empty) ?_, hiff.trans ?_⟩
    · rw [Standard.verify, if_neg hle]
      exact hrun
    · exact ⟨fun h => ⟨not_lt.1 hctx, h⟩, fun h => h.2⟩

theorem Legacy.fresh_verify (hstop : SamplersStop O .legacy signature publicKey) :
    ∃ accepted events, (Legacy.verify O signature message publicKey).fresh = some (accepted, events) ∧
      (accepted = true ↔ Accepts O .legacy signature [] message publicKey) := by
  obtain ⟨accepted, later, hrun, hiff⟩ := verifyFramed_apply hstop [] message []
  exact ⟨accepted, [] ++ later, Protocol.fresh_of_apply hrun, hiff⟩

end Answers

/-- **Verification refines its specification**: for inputs of any lengths it ends with an answer, which
is true for exactly the accepted signatures. Nothing here depends on indices or on the width of words:
that no index is out of range and no operation overflows in these checks is `checked_agrees`. -/
theorem verify_iff_accepts (O : Oracle) (signature message context publicKey : Bytes) :
    (SamplersStop O .standard signature publicKey →
      ∃ accepted events, (Standard.verify O signature message context publicKey).fresh =
          some (accepted, events) ∧
        (accepted = true ↔ context.length ≤ 255 ∧
          Accepts O .standard signature (0 :: context.length.toUInt8 :: context) message publicKey)) ∧
    (SamplersStop O .legacy signature publicKey →
      ∃ accepted events, (Legacy.verify O signature message publicKey).fresh =
          some (accepted, events) ∧
        (accepted = true ↔ Accepts O .legacy signature [] message publicKey)) :=
  ⟨Standard.fresh_verify, Legacy.fresh_verify⟩

theorem verify_iff_accepts_full_hint :
    let parts (v : Variant) := constantParts v (SignatureParts.extreme v.challengeBytes).hint
    ((∃ events, (Standard.verify .constant (parts .standard).encode.bytes [1, 2, 3] [7]
        (List.replicate 2592 1)).fresh = some (true, events)) ∧
      Accepts .constant .standard (parts .standard).encode.bytes [0, 1, 7] [1, 2, 3]
        (List.replicate 2592 1)) ∧
    (∃ events, (Legacy.verify .constant (parts .legacy).encode.bytes [1, 2, 3]
        (List.replicate 2592 1)).fresh = some (true, events)) ∧
      Accepts .constant .legacy (parts .legacy).encode.bytes [] [1, 2, 3] (List.replicate 2592 1) := by
  intro parts
  let publicKey : PublicKey := ⟨List.replicate 2592 1, List.length_replicate⟩
  have haccepts (v : Variant) (frame : Bytes) :
      Accepts .constant v (parts v).encode.bytes frame [1, 2, 3] publicKey.bytes :=
    have hfull := SignatureParts.inRange_extreme v.challengeBytes
    accepts_constantParts hfull.hint_zero_or_one hfull.total_hint_le frame [1, 2, 3] publicKey
  refine ⟨⟨?_, haccepts .standard _⟩, ?_, haccepts .legacy _⟩
  · obtain ⟨_, events, hrun, hiff⟩ := (verify_iff_accepts .constant (parts .standard).encode.bytes
      [1, 2, 3] [7] publicKey.bytes).1 (samplersStop_repeating _ _ _ _)
    obtain rfl := hiff.2 ⟨by decide, haccepts .standard _⟩
    exact ⟨events, hrun⟩
  · obtain ⟨_, events, hrun, hiff⟩ := (verify_iff_accepts .constant (parts .legacy).encode.bytes
      [1, 2, 3] [7] publicKey.bytes).2 (samplersStop_repeating _ _ _ _)
    obtain rfl := hiff.2 (haccepts .legacy _)
    exact ⟨events, hrun⟩

end LatticeSignature
