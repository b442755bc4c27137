import LatticeSignature.Proofs.Verification

/-!
# What a signature binds

Two accepted checks that share a signature, or all of it but the hint, show two inputs on which the
hash collides: every string that is hashed on the way determines the parts it is made of. The hash
is an arbitrary function, so the colliding inputs are named.

* `Xof.Collision`: two inputs with the same first bytes of output.
* `recomputed?`: what a verifier hashes behind the message representative.
* `verifyFramed_true`: the last hash of an accepting check is the challenge hash.
* **`verify_binding`**: a signature binds public key, context and message.
* **`verify_hint_binding`**: challenge hash and response bind the hint.
-/

namespace LatticeSignature

/-- Two inputs that differ, with the same first `n` bytes of output. -/
structure Xof.Collision {rate : ℕ} (X : Xof rate) (n : ℕ) (a b : Bytes) : Prop where
  ne : a ≠ b
  squeeze_eq : X.squeeze a n = X.squeeze b n

/-! ## The last hash of a check -/

/-- The packed high bits that a verifier recovers from a signature and a public key; `none` if they
are malformed or a sampler gives up. -/
def recomputed? (O : Oracle) (v : Variant) (signature publicKey : Bytes) :
    Option (ByteString 1024) := do
  let parts ← SignatureParts.decode? v.challengeBytes signature
  let pk ← ByteString.ofBytes? 2592 publicKey
  let A ← Matrix.expand O (PublicParts.decode pk).rho.bytes
  let challenge ← Poly.challenge O parts.challenge.bytes
  return PolyVec.pack .w1
    (recoverHigh A challenge.transform (PublicParts.decode pk).t1 parts.z parts.hint)

variable {O : Oracle} {v : Variant} {signature signature' frame message publicKey : Bytes}
  {s s' : Session}

theorem recomputed?_eq_some_iff {w : ByteString 1024} :
    recomputed? O v signature publicKey = some w ↔
      ∃ parts pk A challenge, SignatureParts.decode? v.challengeBytes signature = some parts ∧
        publicKey = pk.bytes ∧ Matrix.expand O (PublicParts.decode pk).rho.bytes = some A ∧
        Poly.challenge O parts.challenge.bytes = some challenge ∧
        PolyVec.pack .w1 (recoverHigh A challenge.transform (PublicParts.decode pk).t1 parts.z
          parts.hint) = w := by
  simp only [recomputed?, Option.bind_eq_bind, Option.bind_eq_some_iff, ByteString.ofBytes?_eq_some_iff]
  constructor
  · rintro ⟨parts, hd, pk, hpk, A, hA, challenge, hc, hw⟩
    exact ⟨parts, pk, A, challenge, hd, hpk, hA, hc, Option.some_inj.1 hw⟩
  · rintro ⟨parts, pk, A, challenge, hd, hpk, hA, hc, hw⟩
    exact ⟨parts, hd, pk, hpk, A, hA, challenge, hc, congrArg some hw⟩

theorem verifyParts_true {c : ℕ} {parts : SignatureParts c} {pk : PublicKey} {mu : ByteString 64}
    {events : List Event} (h : verifyParts O parts pk mu ⟨.empty, events⟩ = some (true, s)) :
    ∃ A challenge, Matrix.expand O (PublicParts.decode pk).rho.bytes = some A ∧
      Poly.challenge O parts.challenge.bytes = some challenge ∧
      O.shake256.squeeze (mu.bytes ++ (PolyVec.pack .w1 (recoverHigh A challenge.transform
        (PublicParts.decode pk).t1 parts.z parts.hint)).bytes) c = parts.challenge := by
  unfold verifyParts at h
  split at h
  swap
  · exact absurd h (by simp [reject_apply])
  rw [Protocol.bind_of_apply (Protocol.report_apply ..), Protocol.bind_eq_some_iff] at h
  obtain ⟨A, s₁, hexpand, h⟩ := h
  obtain ⟨hA, rfl⟩ := Protocol.ofOption_eq_some_iff.1 hexpand
  obtain ⟨challenge, s₂, hsample, h⟩ := Protocol.bind_eq_some_iff.1 h
  obtain ⟨hc, rfl⟩ := Protocol.ofOption_eq_some_iff.1 hsample
  rw [Protocol.bind_of_apply (Protocol.hash_apply ..)] at h
  split at h
  swap
  · exact absurd h (by simp [reject_apply])
  rename_i heq
  refine ⟨A, challenge, hA, hc, ?_⟩
  rw [← heq, List.flatten_cons, List.flatten_cons, List.flatten_nil, List.append_nil]

/-- **The last hash of an accepting check** is the challenge hash of the signature. -/
theorem verifyFramed_true
    (h : verifyFramed O v signature frame message publicKey ⟨.empty, []⟩ = some (true, s)) :
    ∃ w, recomputed? O v signature publicKey = some w ∧
      (O.shake256.squeeze ((representative O v frame message publicKey).bytes ++ w.bytes)
        v.challengeBytes).bytes = signature.take v.challengeBytes := by
  unfold verifyFramed at h
  cases hparse : parseSigned v signature publicKey with
  | error cause =>
    rw [hparse] at h
    exact absurd h (by simp [reject_apply])
  | ok found =>
    obtain ⟨parts, pk⟩ := found
    obtain ⟨hd, hpk⟩ := parseSigned_eq_ok_iff.1 hparse
    rw [hparse] at h
    replace h : (Protocol.hash O [pk.bytes] v.trBytes >>= fun tr =>
      Protocol.hash O [tr.bytes, frame, message] 64 >>= fun mu => verifyParts O parts pk mu)
        ⟨.empty, []⟩ = some (true, s) := h
    rw [Protocol.bind_of_apply (Protocol.hash_apply ..),
      Protocol.bind_of_apply (Protocol.hash_apply ..)] at h
    obtain ⟨A, challenge, hA, hc, heq⟩ := verifyParts_true h
    refine ⟨PolyVec.pack .w1
      (recoverHigh A challenge.transform (PublicParts.decode pk).t1 parts.z parts.hint), ?_, ?_⟩
    · exact recomputed?_eq_some_iff.2 ⟨parts, pk, A, challenge, hd, hpk, hA, hc, rfl⟩
    · rw [← (SignatureParts.decode?_eq_some_iff.1 hd).2.2.1, ← heq, squeeze_eq_representative, ← hpk]

/-! ## Key, context and message -/

/-- What the message representative is the hash of: the public key hash, the frame and the message. -/
def representativeInput (O : Oracle) (v : Variant) (frame message publicKey : Bytes) : Bytes :=
  (O.shake256.squeeze publicKey v.trBytes).bytes ++ frame ++ message

namespace Standard

theorem frame_append_inj {context context' message message' : Bytes}
    (h : context.length ≤ 255) (h' : context'.length ≤ 255)
    (heq : Standard.frame context ++ message = Standard.frame context' ++ message') :
    context = context' ∧ message = message' := by
  obtain ⟨hlen, hrest⟩ : context.length.toUInt8 = context'.length.toUInt8 ∧
      context ++ message = context' ++ message' := by
    simpa [Standard.frame] using heq
  have hlen : context.length = context'.length := by
    have := congrArg UInt8.toNat hlen
    rwa [UInt8.toNat_ofNat_of_lt' (by norm_num; omega), UInt8.toNat_ofNat_of_lt' (by norm_num; omega)]
      at this
  exact List.append_inj hrest hlen

variable {context : Bytes}

theorem verify_eq_true {events : List Event}
    (h : (verify O signature message context publicKey).fresh = some (true, events)) :
    context.length ≤ 255 ∧ ∃ s,
      verifyFramed O .standard signature (Standard.frame context) message publicKey ⟨.empty, []⟩ =
        some (true, s) := by
  obtain ⟨hasher, hrun⟩ := Protocol.fresh_eq_some_iff.1 h
  unfold verify at hrun
  split at hrun
  · exact absurd hrun (by simp [reject_apply])
  · rename_i hctx
    exact ⟨not_lt.1 hctx, _, hrun⟩

end Standard

theorem collision_or_representative_ne {context context' message' publicKey' : Bytes}
    (hctx : context.length ≤ 255) (hctx' : context'.length ≤ 255)
    (hne : (publicKey, context, message) ≠ (publicKey', context', message')) :
    O.shake256.Collision 64 publicKey publicKey' ∨
      O.shake256.Collision 64
        (representativeInput O .standard (Standard.frame context) message publicKey)
        (representativeInput O .standard (Standard.frame context') message' publicKey') ∨
      representative O .standard (Standard.frame context) message publicKey ≠
        representative O .standard (Standard.frame context') message' publicKey' := by
  by_cases hmu : representative O .standard (Standard.frame context) message publicKey =
      representative O .standard (Standard.frame context') message' publicKey'
  swap
  · exact Or.inr (Or.inr hmu)
  by_cases hinput : representativeInput O .standard (Standard.frame context) message publicKey =
      representativeInput O .standard (Standard.frame context') message' publicKey'
  swap
  · exact Or.inr (Or.inl ⟨hinput, hmu⟩)
  -- equal inputs hold equal hashes of the public keys, behind which they are framed alike
  unfold representativeInput at hinput
  rw [List.append_assoc, List.append_assoc] at hinput
  obtain ⟨htr, hframed⟩ := List.append_inj hinput (by rw [ByteString.length_bytes, ByteString.length_bytes])
  obtain ⟨rfl, rfl⟩ := Standard.frame_append_inj hctx hctx' hframed
  refine Or.inl ⟨fun hpk => hne (by rw [hpk]), ByteString.ext htr⟩

/-- **A signature binds public key, context and message**: two accepted triples show a collision of
public keys, of the inputs of the message representatives, or of the inputs of the last hashes. -/
theorem verify_binding (O : Oracle) (signature : Bytes)
    {publicKey context message publicKey' context' message' : Bytes} {events events' : List Event}
    (hne : (publicKey, context, message) ≠ (publicKey', context', message'))
    (h : (Standard.verify O signature message context publicKey).fresh = some (true, events))
    (h' : (Standard.verify O signature message' context' publicKey').fresh = some (true, events')) :
    ∃ w w', recomputed? O .standard signature publicKey = some w ∧
      recomputed? O .standard signature publicKey' = some w' ∧
      (O.shake256.Collision 64 publicKey publicKey' ∨
        O.shake256.Collision 64
          ((O.shake256.squeeze publicKey 64).bytes ++ 0 :: context.length.toUInt8 :: context ++ message)
          ((O.shake256.squeeze publicKey' 64).bytes ++ 0 :: context'.length.toUInt8 :: context' ++
            message') ∨
        O.shake256.Collision 64
          ((representative O .standard (Standard.frame context) message publicKey).bytes ++ w.bytes)
          ((representative O .standard (Standard.frame context') message' publicKey').bytes ++
            w'.bytes)) := by
  obtain ⟨hctx, s, hrun⟩ := Standard.verify_eq_true h
  obtain ⟨hctx', s', hrun'⟩ := Standard.verify_eq_true h'
  obtain ⟨w, hw, heq⟩ := verifyFramed_true hrun
  obtain ⟨w', hw', heq'⟩ := verifyFramed_true hrun'
  refine ⟨w, w', hw, hw', ?_⟩
  rcases collision_or_representative_ne (O := O) hctx hctx' hne with hpk | hinput | hmu
  · exact Or.inl hpk
  · exact Or.inr (Or.inl hinput)
  · refine Or.inr (Or.inr ⟨fun hbytes => hmu ?_, ByteString.ext (heq.trans heq'.symm)⟩)
    exact ByteString.ext (List.append_inj_left hbytes
      (by rw [ByteString.length_bytes, ByteString.length_bytes]))

/-! ## The hint -/

/-- **Different hints give different high bits**: each hint bit shows at its own coefficient. -/
theorem hint_eq_of_recoverHigh_eq {A : Matrix} {c : Poly .plain} {t1 : PolyVec .plain 8}
    {z : PolyVec .plain 7} {hint hint' : PolyVec .plain 8} (hA : A.Within 0 8380416)
    (hc : c.Within (-1) 1) (ht : t1.Within 0 1023) (hz : z.Within (-524288) 524288)
    (h01 : ∀ i j, hint.number i j = 0 ∨ hint.number i j = 1)
    (h01' : ∀ i j, hint'.number i j = 0 ∨ hint'.number i j = 1)
    (h : recoverHigh A c.transform t1 z hint = recoverHigh A c.transform t1 z hint') :
    hint = hint' := by
  refine PolyVec.ext_entries fun i => Poly.ext_number fun j => ?_
  change hint.number i j = hint'.number i j
  have hcoeff := congrArg (fun w : PolyVec .plain 8 => (w.number i j).toInt) h
  simp only [toInt_recoverHigh hA hc ht hz, recovered, Rounding.corrected_eq_iff] at hcoeff
  rcases h01 i j with h0 | h1
  · rw [h0, not_not.1 fun hne => hcoeff.2 hne h0]
  · rcases h01' i j with h0' | h1'
    · exact absurd h0' (hcoeff.1 (by rw [h1]; decide))
    · rw [h1, h1']

theorem recomputed?_ne {w w' : ByteString 1024} (hne : signature ≠ signature')
    (hfront : signature.take (v.challengeBytes + 4480) = signature'.take (v.challengeBytes + 4480))
    (hw : recomputed? O v signature publicKey = some w)
    (hw' : recomputed? O v signature' publicKey = some w') : w ≠ w' := by
  obtain ⟨parts, pk, A, challenge, hd, hpk, hA, hc, rfl⟩ := recomputed?_eq_some_iff.1 hw
  obtain ⟨parts', pk', A', challenge', hd', hpk', hA', hc', rfl⟩ := recomputed?_eq_some_iff.1 hw'
  obtain ⟨-, hcanonical, hch, hz, hhint⟩ := SignatureParts.decode?_eq_some_iff.1 hd
  obtain ⟨-, hcanonical', hch', hz', hhint'⟩ := SignatureParts.decode?_eq_some_iff.1 hd'
  obtain rfl : pk = pk' := ByteString.ext (hpk.symm.trans hpk')
  obtain rfl : A = A' := Option.some_inj.1 (hA.symm.trans hA')
  have hchallenge : parts.challenge = parts'.challenge := by
    refine ByteString.ext ?_
    have := congrArg (List.take v.challengeBytes) hfront
    rw [List.take_take, List.take_take, Nat.min_eq_left (by omega)] at this
    rw [hch, hch', this]
  have hresponse : parts.z = parts'.z := by
    rw [hz, hz', ← PolyVec.unpack_take .z signature le_rfl, ← PolyVec.unpack_take .z signature' le_rfl]
    exact congrArg _ hfront
  rw [← hchallenge] at hc'
  obtain rfl : challenge = challenge' := Option.some_inj.1 (hc.symm.trans hc')
  have hA0 := Matrix.within_expand hA
  have hc1 := Poly.within_challenge hc
  have ht := PublicParts.within_t1_decode pk
  have hz0 := (SignatureParts.within_z_decode? hd).mono (by norm_num : (-524288 : ℤ) ≤ _) le_rfl
  intro heq
  have hfits : ∀ (hint : PolyVec .plain 8) (i : Fin 8) (j : Fin 256), PackedForm.w1.Fits
      ((recoverHigh A challenge.transform (PublicParts.decode pk).t1 parts.z hint).number i j) := by
    intro hint i j
    have hij := within_recoverHigh hA0 hc1 ht hz0 hint i j
    exact PackedForm.fits_w1 hij.1 hij.2
  have hhigh := PolyVec.eq_of_pack_eq (hfits parts.hint) (hfits parts'.hint)
    (congrArg ByteString.bytes (hresponse ▸ heq))
  have hhints := hint_eq_of_recoverHigh_eq hA0 hc1 ht hz0
    (Hint.zero_or_one_of_decode? (Hint.decode?_eq_some_iff.2 ⟨hcanonical, hhint⟩))
    (Hint.zero_or_one_of_decode? (Hint.decode?_eq_some_iff.2 ⟨hcanonical', hhint'⟩)) hhigh
  have hparts : parts = parts' := SignatureParts.ext hchallenge hresponse hhints
  rw [← hparts] at hd'
  exact hne ((SignatureParts.encode_of_decode? hd).2.symm.trans (SignatureParts.encode_of_decode? hd').2)

theorem verifyFramed_hint_binding (hne : signature ≠ signature')
    (hfront : signature.take (v.challengeBytes + 4480) = signature'.take (v.challengeBytes + 4480))
    (h : verifyFramed O v signature frame message publicKey ⟨.empty, []⟩ = some (true, s))
    (h' : verifyFramed O v signature' frame message publicKey ⟨.empty, []⟩ = some (true, s')) :
    let mu := representative O v frame message publicKey
    ∃ w w' : ByteString 1024, recomputed? O v signature publicKey = some w ∧
      recomputed? O v signature' publicKey = some w' ∧ w ≠ w' ∧
      mu.bytes ++ w.bytes ≠ mu.bytes ++ w'.bytes ∧
      (O.shake256.squeeze (mu.bytes ++ w.bytes) v.challengeBytes).bytes =
        signature.take v.challengeBytes ∧
      (O.shake256.squeeze (mu.bytes ++ w'.bytes) v.challengeBytes).bytes =
        signature.take v.challengeBytes := by
  intro mu
  obtain ⟨w, hw, heq⟩ := verifyFramed_true h
  obtain ⟨w', hw', heq'⟩ := verifyFramed_true h'
  have hhigh := recomputed?_ne hne hfront hw hw'
  refine ⟨w, w', hw, hw', hhigh, fun hbytes => hhigh ?_, heq, heq'.trans ?_⟩
  · exact ByteString.ext (List.append_cancel_left hbytes)
  · have := congrArg (List.take v.challengeBytes) hfront
    rw [List.take_take, List.take_take, Nat.min_eq_left (by omega)] at this
    exact this.symm

/-- **Challenge hash and response bind the hint**: two accepted signatures that differ in their hint
sections only make the verifier hash different high bits to the same challenge hash. -/
theorem verify_hint_binding (O : Oracle) (message publicKey signature signature' : Bytes)
    (hne : signature ≠ signature') :
    (∀ (context : Bytes) (events events' : List Event),
      signature.take (64 + 7 * 640) = signature'.take (64 + 7 * 640) →
      (Standard.verify O signature message context publicKey).fresh = some (true, events) →
      (Standard.verify O signature' message context publicKey).fresh = some (true, events') →
      let mu := representative O .standard (Standard.frame context) message publicKey
      ∃ w w' : ByteString 1024, recomputed? O .standard signature publicKey = some w ∧
        recomputed? O .standard signature' publicKey = some w' ∧ w ≠ w' ∧
        mu.bytes ++ w.bytes ≠ mu.bytes ++ w'.bytes ∧
        (O.shake256.squeeze (mu.bytes ++ w.bytes) 64).bytes = signature.take 64 ∧
        (O.shake256.squeeze (mu.bytes ++ w'.bytes) 64).bytes = signature.take 64) ∧
    ∀ events events' : List Event,
      signature.take (32 + 7 * 640) = signature'.take (32 + 7 * 640) →
      (Legacy.verify O signature message publicKey).fresh = some (true, events) →
      (Legacy.verify O signature' message publicKey).fresh = some (true, events') →
      let mu := representative O .legacy [] message publicKey
      ∃ w w' : ByteString 1024, recomputed? O .legacy signature publicKey = some w ∧
        recomputed? O .legacy signature' publicKey = some w' ∧ w ≠ w' ∧
        mu.bytes ++ w.bytes ≠ mu.bytes ++ w'.bytes ∧
        (O.shake256.squeeze (mu.bytes ++ w.bytes) 32).bytes = signature.take 32 ∧
        (O.shake256.squeeze (mu.bytes ++ w'.bytes) 32).bytes = signature.take 32 := by
  constructor
  · intro context events events' hfront h h'
    obtain ⟨-, s, hrun⟩ := Standard.verify_eq_true h
    obtain ⟨-, s', hrun'⟩ := Standard.verify_eq_true h'
    exact verifyFramed_hint_binding (v := .standard) hne hfront hrun hrun'
  · intro events events' hfront h h'
    obtain ⟨hasher, hrun⟩ := Protocol.fresh_eq_some_iff.1 h
    obtain ⟨hasher', hrun'⟩ := Protocol.fresh_eq_some_iff.1 h'
    exact verifyFramed_hint_binding (v := .legacy) hne hfront hrun hrun'

/-! ## Signatures under streams of one byte -/

section Constant

variable {hint : PolyVec .plain 8} (h01 : ∀ i j, hint.number i j = 0 ∨ hint.number i j = 1)
  (hw : hint.total ≤ 75)

include h01 hw in
theorem verifyFramed_constant (frame message : Bytes) (publicKey : PublicKey) :
    ∃ s, verifyFramed .constant v (constantParts v hint).encode.bytes frame message publicKey.bytes
      ⟨.empty, []⟩ = some (true, s) := by
  obtain ⟨accepted, later, hrun, hiff⟩ := verifyFramed_apply (samplersStop_repeating (fun _ => false) v
    (constantParts v hint).encode.bytes publicKey.bytes) frame message []
  rw [hiff.2 (accepts_constantParts h01 hw frame message publicKey)] at hrun
  exact ⟨_, hrun⟩

include h01 hw in
theorem Standard.verify_constant (message context : Bytes) (hctx : context.length ≤ 255)
    (publicKey : PublicKey) :
    ∃ events, (Standard.verify .constant (constantParts .standard hint).encode.bytes message context
      publicKey.bytes).fresh = some (true, events) := by
  obtain ⟨⟨h, events⟩, hrun⟩ :=
    verifyFramed_constant (v := .standard) h01 hw (Standard.frame context) message publicKey
  have hle : ¬Params.maxContextBytes < context.length := not_lt.2 hctx
  refine ⟨events, Protocol.fresh_of_apply (h := h) ?_⟩
  rw [Standard.verify, if_neg hle]
  exact hrun

include h01 hw in
theorem Legacy.verify_constant (message : Bytes) (publicKey : PublicKey) :
    ∃ events, (Legacy.verify .constant (constantParts .legacy hint).encode.bytes message
      publicKey.bytes).fresh = some (true, events) := by
  obtain ⟨⟨h, events⟩, hrun⟩ := verifyFramed_constant (v := .legacy) h01 hw [] message publicKey
  exact ⟨events, Protocol.fresh_of_apply (h := h) hrun⟩

theorem take_encode_constantParts (v : Variant) (hint : PolyVec .plain 8) :
    (constantParts v hint).encode.bytes.take (v.challengeBytes + 4480) =
      List.replicate v.challengeBytes 0x55 ++ (PolyVec.pack .z (PolyVec.flat (n := 7) 524167)).bytes :=
  List.take_left' (by simp)

end Constant

theorem zero_or_one_zero (i : Fin 8) (j : Fin 256) :
    (PolyVec.zero : PolyVec .plain 8).number i j = 0 ∨
      (PolyVec.zero : PolyVec .plain 8).number i j = 1 := by
  left
  rw [PolyVec.number, PolyVec.get_zero, Poly.number_zero]

theorem total_zero : (PolyVec.zero : PolyVec .plain 8).total = 0 := by
  rw [PolyVec.total_eq_sum]
  refine Finset.sum_eq_zero fun i _ => ?_
  rw [PolyVec.get_zero, Poly.total_eq_sum]
  exact Finset.sum_eq_zero fun j _ => by rw [Poly.number_zero]; rfl

/-- A byte may be moved from the context to the message, with constant streams. -/
theorem verify_binding_constant :
    ∃ signature w w', recomputed? .constant .standard signature (ByteString.zero 2592).bytes = some w ∧
      recomputed? .constant .standard signature (ByteString.zero 2592).bytes = some w' ∧
      (Oracle.constant.shake256.Collision 64 (ByteString.zero 2592).bytes (ByteString.zero 2592).bytes ∨
        Oracle.constant.shake256.Collision 64
          ((Oracle.constant.shake256.squeeze (ByteString.zero 2592).bytes 64).bytes ++ [0, 1, 7] ++ [])
          ((Oracle.constant.shake256.squeeze (ByteString.zero 2592).bytes 64).bytes ++ [0, 0] ++ [7]) ∨
        Oracle.constant.shake256.Collision 64
          ((representative .constant .standard (Standard.frame [7]) []
            (ByteString.zero 2592).bytes).bytes ++ w.bytes)
          ((representative .constant .standard (Standard.frame []) [7]
            (ByteString.zero 2592).bytes).bytes ++ w'.bytes)) := by
  have hzero := total_zero.trans_le (Nat.zero_le 75)
  obtain ⟨events, h⟩ := Standard.verify_constant zero_or_one_zero hzero [] [7] (by decide) (.zero 2592)
  obtain ⟨events', h'⟩ := Standard.verify_constant zero_or_one_zero hzero [7] [] (by decide) (.zero 2592)
  obtain ⟨w, w', hw, hw', hcollision⟩ := verify_binding .constant _ (by simp) h h'
  exact ⟨_, w, w', hw, hw', hcollision⟩

theorem encode_constantParts_ne (v : Variant) :
    (constantParts v .zero).encode.bytes ≠
      (constantParts v (SignatureParts.extreme v.challengeBytes).hint).encode.bytes := by
  intro heq
  have h := decode?_encode_constantParts (v := v) zero_or_one_zero (total_zero.trans_le (Nat.zero_le 75))
  have h' := decode?_encode_constantParts (v := v)
    (SignatureParts.inRange_extreme v.challengeBytes).hint_zero_or_one
    (SignatureParts.inRange_extreme v.challengeBytes).total_hint_le
  rw [heq, h', Option.some_inj] at h
  have hhints : (SignatureParts.extreme v.challengeBytes).hint = .zero := congrArg SignatureParts.hint h
  have hone : (SignatureParts.extreme v.challengeBytes).hint.number 7 255 = 1 := by
    rw [SignatureParts.number_hint_extreme, if_pos (by decide)]
  rw [hhints, PolyVec.number, PolyVec.get_zero, Poly.number_zero] at hone
  exact absurd hone (by decide)

/-- An empty and a full hint section pass for the same challenge hash and response, with constant
streams. -/
theorem verify_hint_binding_constant :
    (∃ signature signature' w w', signature ≠ signature' ∧
      recomputed? .constant .standard signature (ByteString.zero 2592).bytes = some w ∧
      recomputed? .constant .standard signature' (ByteString.zero 2592).bytes = some w' ∧ w ≠ w') ∧
    ∃ signature signature' w w', signature ≠ signature' ∧
      recomputed? .constant .legacy signature (ByteString.zero 2592).bytes = some w ∧
      recomputed? .constant .legacy signature' (ByteString.zero 2592).bytes = some w' ∧ w ≠ w' := by
  have hzero := total_zero.trans_le (Nat.zero_le 75)
  have hfull := SignatureParts.inRange_extreme
  have hfront (v : Variant) : (constantParts v .zero).encode.bytes.take (v.challengeBytes + 4480) =
      (constantParts v (SignatureParts.extreme v.challengeBytes).hint).encode.bytes.take
        (v.challengeBytes + 4480) :=
    (take_encode_constantParts v _).trans (take_encode_constantParts v _).symm
  constructor
  · obtain ⟨events, h⟩ := Standard.verify_constant zero_or_one_zero hzero [] [] (by decide) (.zero 2592)
    obtain ⟨events', h'⟩ := Standard.verify_constant (hfull 64).hint_zero_or_one (hfull 64).total_hint_le
      [] [] (by decide) (.zero 2592)
    obtain ⟨w, w', hw, hw', hne, -⟩ :=
      (verify_hint_binding .constant [] (ByteString.zero 2592).bytes _ _
        (encode_constantParts_ne .standard)).1 [] events events' (hfront .standard) h h'
    exact ⟨_, _, w, w', encode_constantParts_ne .standard, hw, hw', hne⟩
  · obtain ⟨events, h⟩ := Legacy.verify_constant zero_or_one_zero hzero [] (.zero 2592)
    obtain ⟨events', h'⟩ := Legacy.verify_constant (hfull 32).hint_zero_or_one (hfull 32).total_hint_le
      [] (.zero 2592)
    obtain ⟨w, w', hw, hw', hne, -⟩ :=
      (verify_hint_binding .constant [] (ByteString.zero 2592).bytes _ _
        (encode_constantParts_ne .legacy)).2 events events' (hfront .legacy) h h'
    exact ⟨_, _, w, w', encode_constantParts_ne .legacy, hw, hw', hne⟩

end LatticeSignature
