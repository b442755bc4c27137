import LatticeSignature.Proofs.Verification

/-!
# Calls on a shared hasher

A caller may run all its calls on one hasher. A call ends early only before its first hash or after
reading a hash off, so it leaves the hasher as it was or empty, and the next call cannot tell it from
a fresh one.

* `Standard.signInto`, `Legacy.signInto`: signing into a buffer of the caller.
* `Call`, `Answer`, `serve`: calls of both variants, one after the other on one hasher.
* `Call.Hashes`: the call passes the checks that come before its first hash.
* **`Call.leavesEmpty_run`**, **`Call.run_untouched`**: the hasher after a call.
* **`shared_hasher_isolated`**: the answers on a shared hasher are those on fresh ones.
-/

namespace LatticeSignature

/-! ## Signing into a buffer -/

/-- Signs into a buffer, which is written when the last round is over. -/
def signFramedInto (O : Oracle) (v : Variant) (sk : SecretKey v) (frame message randomness : Bytes) :
    StateT (Signature v) Protocol Unit := do
  let signature ← signFramed O v sk frame message randomness
  set signature

/-- Signs a message under a context of at most 255 bytes into a buffer. -/
def Standard.signInto (O : Oracle) (sk : SecretKey .standard) (message context : Bytes)
    (randomness : ByteString 32) : StateT (Signature .standard) Protocol (Except Error Unit) :=
  if Params.maxContextBytes < context.length then return .error (.contextTooLong context.length)
  else do
    signFramedInto O .standard sk (frame context) message randomness.bytes
    return .ok ()

/-- Signs a message into a buffer. -/
def Legacy.signInto (O : Oracle) (sk : SecretKey .legacy) (message : Bytes) :
    StateT (Signature .legacy) Protocol Unit :=
  signFramedInto O .legacy sk [] message []

/-- **What stands in the buffer** after signing: the signature, or what stood there before an error. -/
theorem Standard.run_signInto (O : Oracle) (sk : SecretKey .standard) (message context : Bytes)
    (randomness : ByteString 32) (buffer : Signature .standard) :
    (signInto O sk message context randomness).run buffer = do
      match ← sign O sk message context randomness with
      | .error e => return (.error e, buffer)
      | .ok signature => return (.ok (), signature) := by
  unfold signInto sign
  split
  · rfl
  · simp [signFramedInto]

theorem Legacy.run_signInto (O : Oracle) (sk : SecretKey .legacy) (message : Bytes)
    (buffer : Signature .legacy) :
    (signInto O sk message).run buffer = do
      let signature ← sign O sk message
      return ((), signature) := by
  simp [signInto, signFramedInto, sign]

/-! ## Calls -/

/-- A call of one of the two variants. Keys, seeds and buffers have their lengths by type; a verifier
is given any byte strings. -/
inductive Call where
  | generate (v : Variant) (seed : ByteString 32)
  | standardSign (sk : SecretKey .standard) (message context : Bytes) (randomness : ByteString 32)
      (buffer : Signature .standard)
  | legacySign (sk : SecretKey .legacy) (message : Bytes) (buffer : Signature .legacy)
  | standardVerify (signature message context publicKey : Bytes)
  | legacyVerify (signature message publicKey : Bytes)

/-- What a call gives back: keys, a result with the buffer for the signature, or a verdict. -/
inductive Answer where
  | keys (secretKey publicKey : Bytes)
  | signed (result : Except Error Unit) (buffer : Bytes)
  | verdict (accepted : Bool)

namespace Call

/-- Runs a call on the hasher at hand. -/
def run (O : Oracle) : Call → Protocol Answer
  | generate v seed => do
    let keys ← KeyPair.generate O v seed
    return .keys keys.secretKey.bytes keys.publicKey.bytes
  | standardSign sk message context randomness buffer => do
    let (result, buffer) ← (Standard.signInto O sk message context randomness).run buffer
    return .signed result buffer.bytes
  | legacySign sk message buffer => do
    let ((), buffer) ← (Legacy.signInto O sk message).run buffer
    return .signed (.ok ()) buffer.bytes
  | standardVerify signature message context publicKey => do
    let accepted ← Standard.verify O signature message context publicKey
    return .verdict accepted
  | legacyVerify signature message publicKey => do
    let accepted ← Legacy.verify O signature message publicKey
    return .verdict accepted

end Call

/-- The answers to calls that share one hasher, each with the events of its call, up to the first call
that does not end. -/
def serve (O : Oracle) : Hasher → List Call → List (Answer × List Event)
  | _, [] => []
  | h, call :: calls =>
    match (call.run O).start h with
    | none => []
    | some (answer, s) => (answer, s.events) :: serve O s.hasher calls

/-! ## The checks before the first hash -/

/-- The lengths are right and the hint section is canonical. -/
structure Readable (v : Variant) (signature publicKey : Bytes) : Prop where
  length_signature : signature.length = 4563 + v.challengeBytes
  length_publicKey : publicKey.length = 2592
  canonical_hint : Hint.Canonical (hintSection v signature)

/-- **The call goes on to its first hash.** -/
def Call.Hashes : Call → Prop
  | generate _ _ => True
  | standardSign _ _ context _ _ => context.length ≤ 255
  | legacySign _ _ _ => True
  | standardVerify signature _ context publicKey =>
    context.length ≤ 255 ∧ Readable .standard signature publicKey
  | legacyVerify signature _ publicKey => Readable .legacy signature publicKey

section Readable

variable {v : Variant} {signature publicKey : Bytes}

theorem Readable.parseSigned_eq_ok (h : Readable v signature publicKey) :
    ∃ found, parseSigned v signature publicKey = .ok found := by
  obtain ⟨parts, hd⟩ := Option.isSome_iff_exists.1
    (SignatureParts.isSome_decode? h.length_signature h.canonical_hint)
  exact ⟨(parts, ⟨publicKey, h.length_publicKey⟩), parseSigned_eq_ok_iff.2 ⟨hd, rfl⟩⟩

theorem parseSigned_eq_error (h : ¬Readable v signature publicKey) :
    ∃ cause, parseSigned v signature publicKey = .error cause := by
  cases hparse : parseSigned v signature publicKey with
  | error cause => exact ⟨cause, rfl⟩
  | ok found =>
    obtain ⟨hd, hpk⟩ := parseSigned_eq_ok_iff.1 hparse
    obtain ⟨hlen, hcanonical, -⟩ := SignatureParts.decode?_eq_some_iff.1 hd
    exact absurd ⟨hlen, hpk ▸ found.2.length_eq, hcanonical⟩ h

end Readable

/-! ## What each protocol does to the hasher -/

section Hasher

open Protocol

variable {O : Oracle}

theorem KeyPair.leavesEmpty_generate (v : Variant) (seed : ByteString 32) :
    LeavesEmpty (KeyPair.generate O v seed) := by
  unfold KeyPair.generate
  refine (leavesEmpty_hash O _ _).bind fun material => ?_
  refine (keepsEmpty_ofOption _).bind fun A => ?_
  refine (keepsEmpty_ofOption _).bind fun s1 => ?_
  refine (keepsEmpty_ofOption _).bind fun s2 => ?_
  refine (leavesEmpty_hash O _ _).keepsEmpty.bind fun tr => ?_
  exact (keepsEmpty_report _).bind fun _ => keepsEmpty_pure _

theorem leavesEmpty_signRound {length : ℕ} (k : SigningKey) (mu rhoPrime : ByteString 64)
    (nonce : UInt16) : LeavesEmpty (signRound O length k mu rhoPrime nonce) := by
  unfold signRound
  refine (leavesEmpty_hash O _ _).bind fun hash => ?_
  exact (keepsEmpty_ofOption _).bind fun c => keepsEmpty_pure _

/-- A round that is turned down has read its hash off like the one that is accepted. -/
theorem leavesEmpty_signRounds {length : ℕ} (k : SigningKey) (mu rhoPrime : ByteString 64)
    (fuel n : ℕ) : LeavesEmpty (signRounds O length k mu rhoPrime fuel n) := by
  induction fuel generalizing n with
  | zero =>
    intro s p s' h
    exact absurd h (by simp [signRounds])
  | succ fuel ih =>
    unfold signRounds
    refine (leavesEmpty_signRound k mu rhoPrime _).bind fun r => ?_
    cases r with
    | some p => exact (keepsEmpty_report _).bind fun _ => keepsEmpty_pure _
    | none => exact (ih (n + 1)).keepsEmpty

theorem leavesEmpty_signFramed (v : Variant) (sk : SecretKey v) (frame message randomness : Bytes) :
    LeavesEmpty (signFramed O v sk frame message randomness) := by
  unfold signFramed
  refine (leavesEmpty_hash O _ _).bind fun mu => ?_
  refine (leavesEmpty_hash O _ _).keepsEmpty.bind fun rhoPrime => ?_
  refine (keepsEmpty_ofOption _).bind fun k => ?_
  exact (leavesEmpty_signRounds k _ _ _ _).keepsEmpty.bind fun p => keepsEmpty_pure _

theorem keepsEmpty_reject (cause : Rejection) : KeepsEmpty (reject cause) :=
  (keepsEmpty_report _).bind fun _ => keepsEmpty_pure _

theorem keepsEmpty_verifyParts {c : ℕ} (parts : SignatureParts c) (publicKey : PublicKey)
    (mu : ByteString 64) : KeepsEmpty (verifyParts O parts publicKey mu) := by
  unfold verifyParts
  split
  · refine (keepsEmpty_report _).bind fun _ => ?_
    refine (keepsEmpty_ofOption _).bind fun A => ?_
    refine (keepsEmpty_ofOption _).bind fun challenge => ?_
    refine (leavesEmpty_hash O _ _).keepsEmpty.bind fun again => ?_
    split
    · exact keepsEmpty_pure _
    · exact keepsEmpty_reject _
  · exact keepsEmpty_reject _

variable {v : Variant} {signature publicKey : Bytes}

theorem leavesEmpty_verifyFramed (h : Readable v signature publicKey) (frame message : Bytes) :
    LeavesEmpty (verifyFramed O v signature frame message publicKey) := by
  obtain ⟨⟨parts, pk⟩, hparse⟩ := h.parseSigned_eq_ok
  unfold verifyFramed
  rw [hparse]
  refine (leavesEmpty_hash O _ _).bind fun tr => ?_
  exact (leavesEmpty_hash O _ _).keepsEmpty.bind fun mu => keepsEmpty_verifyParts parts pk mu

theorem verifyFramed_untouched (h : ¬Readable v signature publicKey) (frame message : Bytes)
    (hasher : Hasher) (events : List Event) :
    ∃ cause, verifyFramed O v signature frame message publicKey ⟨hasher, events⟩ =
      some (false, ⟨hasher, events ++ [.rejected cause]⟩) := by
  obtain ⟨cause, hparse⟩ := parseSigned_eq_error h
  refine ⟨cause, ?_⟩
  unfold verifyFramed
  rw [hparse]
  exact reject_apply ..

/-! ## The hasher after a call -/

theorem Standard.leavesEmpty_signInto (sk : SecretKey .standard) (message : Bytes) {context : Bytes}
    (hctx : context.length ≤ 255) (randomness : ByteString 32) (buffer : Signature .standard) :
    LeavesEmpty ((signInto O sk message context randomness).run buffer) := by
  have hshort : ¬Params.maxContextBytes < context.length := not_lt.2 hctx
  rw [run_signInto, sign, if_neg hshort]
  have hframed : LeavesEmpty (signFramed O .standard sk (frame context) message randomness.bytes) :=
    leavesEmpty_signFramed _ _ _ _ _
  refine LeavesEmpty.bind (hframed.bind fun _ => keepsEmpty_pure _) fun result => ?_
  cases result <;> exact keepsEmpty_pure _

theorem Standard.signInto_untouched (sk : SecretKey .standard) (message : Bytes) {context : Bytes}
    (hctx : 255 < context.length) (randomness : ByteString 32) (buffer : Signature .standard)
    (s : Session) :
    (signInto O sk message context randomness).run buffer s =
      some ((.error (.contextTooLong context.length), buffer), s) := by
  have hlong : Params.maxContextBytes < context.length := hctx
  rw [run_signInto, sign, if_pos hlong]
  rfl

/-- **Signing fails only for a context that is too long**, and then changes nothing. -/
theorem Standard.signInto_eq_error_iff {sk : SecretKey .standard} {message context : Bytes}
    {randomness : ByteString 32} {buffer buffer' : Signature .standard} {s s' : Session} {e : Error} :
    (signInto O sk message context randomness).run buffer s = some ((.error e, buffer'), s') ↔
      255 < context.length ∧ e = .contextTooLong context.length ∧ buffer' = buffer ∧ s' = s := by
  by_cases hctx : 255 < context.length
  · rw [signInto_untouched sk message hctx randomness buffer s]
    simp [hctx, eq_comm, and_assoc]
  · have hshort : ¬Params.maxContextBytes < context.length := hctx
    refine ⟨fun h => ?_, fun h => absurd h.1 hctx⟩
    rw [run_signInto, sign, if_neg hshort] at h
    obtain ⟨result, s₁, hsign, hresult⟩ := bind_eq_some_iff.1 h
    obtain ⟨signature, s₂, -, hok⟩ := bind_eq_some_iff.1 hsign
    obtain ⟨rfl, -⟩ := Prod.mk.inj (Option.some_inj.1 hok)
    exact absurd hresult (by simp)

theorem Legacy.leavesEmpty_signInto (sk : SecretKey .legacy) (message : Bytes)
    (buffer : Signature .legacy) : LeavesEmpty ((signInto O sk message).run buffer) := by
  rw [run_signInto]
  have hframed : LeavesEmpty (sign O sk message) := leavesEmpty_signFramed _ _ _ _ _
  exact hframed.bind fun _ => keepsEmpty_pure _

theorem Standard.leavesEmpty_verify {context : Bytes} (hctx : context.length ≤ 255)
    (hread : Readable .standard signature publicKey) (message : Bytes) :
    LeavesEmpty (verify O signature message context publicKey) := by
  have hshort : ¬Params.maxContextBytes < context.length := not_lt.2 hctx
  unfold verify
  rw [if_neg hshort]
  exact leavesEmpty_verifyFramed hread _ _

theorem Standard.verify_untouched {context : Bytes}
    (h : ¬(context.length ≤ 255 ∧ Readable .standard signature publicKey)) (message : Bytes)
    (hasher : Hasher) (events : List Event) :
    ∃ cause, verify O signature message context publicKey ⟨hasher, events⟩ =
      some (false, ⟨hasher, events ++ [.rejected cause]⟩) := by
  unfold verify
  by_cases hctx : Params.maxContextBytes < context.length
  · rw [if_pos hctx]
    exact ⟨_, reject_apply ..⟩
  · rw [if_neg hctx]
    exact verifyFramed_untouched (fun hread => h ⟨not_lt.1 hctx, hread⟩) _ _ _ _

namespace Call

/-- **A call that hashes leaves the hasher empty**, whatever was in it. -/
theorem leavesEmpty_run {call : Call} (h : call.Hashes) : LeavesEmpty (call.run O) := by
  cases call with
  | generate v seed =>
    exact LeavesEmpty.bind (KeyPair.leavesEmpty_generate v seed) fun _ => keepsEmpty_pure _
  | standardSign sk message context randomness buffer =>
    exact LeavesEmpty.bind (Standard.leavesEmpty_signInto sk message h randomness buffer)
      fun _ => keepsEmpty_pure _
  | legacySign sk message buffer =>
    exact LeavesEmpty.bind (Legacy.leavesEmpty_signInto sk message buffer) fun _ => keepsEmpty_pure _
  | standardVerify signature message context publicKey =>
    exact LeavesEmpty.bind (Standard.leavesEmpty_verify h.1 h.2 message) fun _ => keepsEmpty_pure _
  | legacyVerify signature message publicKey =>
    exact LeavesEmpty.bind (leavesEmpty_verifyFramed h [] message) fun _ => keepsEmpty_pure _

/-- **A call that does not hash** answers at once and leaves the hasher as it was. -/
theorem run_untouched {call : Call} (h : ¬call.Hashes) (hasher : Hasher) (events : List Event) :
    ∃ answer later, call.run O ⟨hasher, events⟩ = some (answer, ⟨hasher, events ++ later⟩) := by
  cases call with
  | generate => exact absurd trivial h
  | legacySign => exact absurd trivial h
  | standardSign sk message context randomness buffer =>
    have hrun := Standard.signInto_untouched (O := O) sk message (not_le.1 h) randomness buffer
      ⟨hasher, events⟩
    refine ⟨.signed (.error (.contextTooLong context.length)) buffer.bytes, [], ?_⟩
    rw [List.append_nil]
    exact bind_of_apply hrun
  | standardVerify signature message context publicKey =>
    obtain ⟨cause, hrun⟩ := Standard.verify_untouched h message hasher events
    exact ⟨.verdict false, [.rejected cause], bind_of_apply hrun⟩
  | legacyVerify signature message publicKey =>
    obtain ⟨cause, hrun⟩ := verifyFramed_untouched h [] message hasher events
    exact ⟨.verdict false, [.rejected cause], bind_of_apply hrun⟩

theorem keepsEmpty_run (call : Call) : KeepsEmpty (call.run O) := by
  intro s answer s' hs h
  by_cases hc : call.Hashes
  · exact leavesEmpty_run hc s answer s' h
  · obtain ⟨answer', later, hrun⟩ := run_untouched (O := O) hc s.hasher s.events
    obtain ⟨-, rfl⟩ := Prod.mk.inj (Option.some_inj.1 (h.symm.trans hrun))
    exact hs

end Call

end Hasher

/-! ## Calls in a row -/

/-- **The calls of a run are served as if each were alone**: by induction on the calls, since each
hands an empty hasher to the next. -/
theorem serve_empty (O : Oracle) (calls : List Call) :
    (serve O .empty calls).map some =
      (calls.map fun call => (call.run O).fresh).takeWhile Option.isSome := by
  induction calls with
  | nil => rfl
  | cons call calls ih =>
    rw [List.map_cons, serve]
    cases hrun : (call.run O).start .empty with
    | none =>
      have hfresh : (call.run O).fresh = none := by rw [Protocol.fresh, hrun, Option.map_none]
      rw [hfresh, List.takeWhile_cons_of_neg (by simp), List.map_nil]
    | some r =>
      obtain ⟨answer, s⟩ := r
      have hfresh : (call.run O).fresh = some (answer, s.events) := by
        rw [Protocol.fresh, hrun, Option.map_some]
      have hs : s.hasher = .empty := call.keepsEmpty_run _ _ _ rfl hrun
      rw [hfresh, List.takeWhile_cons_of_pos rfl, List.map_cons, hs, ih]

/-- **A shared hasher carries nothing from one call to another.** Calls of both variants, mixed and with
any inputs, are answered on a shared hasher as on fresh ones, up to a call that does not end. From any
hasher, a call that does not pass the checks before its first hash is answered and leaves the hasher as
it was; every other call that ends leaves it empty. Signing fails for contexts that are too long only,
and leaves the buffer for the signature as it was. -/
theorem shared_hasher_isolated (O : Oracle) :
    (∀ calls, (serve O .empty calls).map some =
      (calls.map fun call => (call.run O).fresh).takeWhile Option.isSome) ∧
    (∀ (call : Call) s, ¬call.Hashes →
      ∃ answer events, call.run O s = some (answer, ⟨s.hasher, events⟩)) ∧
    (∀ (call : Call) s answer s', call.Hashes → call.run O s = some (answer, s') →
      s'.hasher = .empty) ∧
    ∀ sk message context randomness buffer buffer' s s' e,
      (Standard.signInto O sk message context randomness).run buffer s =
          some ((.error e, buffer'), s') ↔
        255 < context.length ∧ e = .contextTooLong context.length ∧ buffer' = buffer ∧ s' = s := by
  refine ⟨serve_empty O, fun call s hc => ?_, fun call s answer s' hc h => ?_, ?_⟩
  · obtain ⟨answer, later, hrun⟩ := Call.run_untouched (O := O) hc s.hasher s.events
    exact ⟨answer, _, hrun⟩
  · exact Call.leavesEmpty_run hc s answer s' h
  · intro sk message context randomness buffer buffer' s s' e
    exact Standard.signInto_eq_error_iff

theorem KeyPair.exists_generate_repeating (zero : Bytes → Bool) (v : Variant) (seed : ByteString 32)
    (s : Session) : ∃ keys s', KeyPair.generate (.repeating zero) v seed s = some (keys, s') := by
  unfold KeyPair.generate
  simp only [Matrix.expand_repeating, PolyVec.uniformEta_repeating]
  exact ⟨_, _, rfl⟩

theorem shared_hasher_isolated_constant :
    (∃ answer events,
      (Call.standardSign (.zero _) [] (List.replicate 256 0) (.zero 32) (.zero _)).run .constant
        ⟨⟨[7]⟩, []⟩ = some (answer, ⟨⟨[7]⟩, events⟩)) ∧
    ∃ answer s', (Call.generate .legacy (.zero 32)).run .constant ⟨⟨[7]⟩, []⟩ = some (answer, s') ∧
      s'.hasher = .empty := by
  obtain ⟨-, hearly, hlate, -⟩ := shared_hasher_isolated .constant
  constructor
  · refine hearly _ ⟨⟨[7]⟩, []⟩ ?_
    rw [Call.Hashes, List.length_replicate]
    norm_num
  · obtain ⟨keys, s', hrun⟩ := KeyPair.exists_generate_repeating _ .legacy (.zero 32) ⟨⟨[7]⟩, []⟩
    have hcall : (Call.generate .legacy (.zero 32)).run .constant ⟨⟨[7]⟩, []⟩ =
        some (.keys keys.secretKey.bytes keys.publicKey.bytes, s') := Protocol.bind_of_apply hrun
    have hhashes : (Call.generate .legacy (.zero 32)).Hashes := trivial
    exact ⟨_, s', hcall, hlate _ _ _ _ hhashes hcall⟩

end LatticeSignature
