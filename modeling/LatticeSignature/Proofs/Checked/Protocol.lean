import LatticeSignature.Proofs.Checked.Commitment
import LatticeSignature.Proofs.Checked.Layout
import LatticeSignature.Proofs.Checked.Sampler
import LatticeSignature.Proofs.Protocol
import LatticeSignature.Proofs.Signing
import LatticeSignature.Proofs.Verification

/-!
# Checked runs

Key generation, signing and verification with every result and every index looked at. The functions
that samplers and hashes draw on are arbitrary, and so are the byte strings that are given, as far
as their lengths are not part of their types.

* `CheckedRun`: runs that may stop with a fault.
* `CheckedRun.Agrees`: a checked run that does what a run does, and has no fault.
* `KeyPair.checkedGenerate`, `Standard.checkedSign`, `Legacy.checkedSign`, `Standard.checkedVerify`,
  `Legacy.checkedVerify`: the protocol.
* `checkedSignUpTo`: the loop of signing, with any number of rounds.
* **`checked_agrees`**: each of them agrees with what it checks.
-/

namespace LatticeSignature

open Checked Params

/-- A run that stops with a fault or goes on as a run does. -/
def CheckedRun (α : Type) : Type := Session → Checked (Option (α × Session))

namespace CheckedRun

variable {α β : Type}

instance : Monad CheckedRun where
  pure a := fun s => .ok (some (a, s))
  bind x f := fun s => do
    match ← x s with
    | none => return none
    | some (a, s) => f a s

/-- A step without arithmetic and indices. -/
def ofProtocol (p : Protocol α) : CheckedRun α := fun s => .ok (p s)

def ofChecked (x : Checked α) : CheckedRun α := fun s => do
  let a ← x
  return some (a, s)

/-- Goes on with a value if there is one. -/
def ofCheckedOption (x : Checked (Option α)) : CheckedRun α := fun s => do
  let a ← x
  return a.map fun a => (a, s)

/-- A checked run that does what a run does. -/
def Agrees (x : CheckedRun α) (p : Protocol α) : Prop := ∀ s, x s = .ok (p s)

theorem ofChecked_bind {x : Checked α} {a : α} (h : x = .ok a) (f : α → CheckedRun β) :
    (ofChecked x >>= f) = f a := by
  subst h
  rfl

theorem agrees_ofProtocol (p : Protocol α) : Agrees (ofProtocol p) p := fun _ => rfl

theorem agrees_pure (a : α) : Agrees (pure a) (pure a) := fun _ => rfl

theorem agrees_ofChecked {x : Checked α} {a : α} (h : x = .ok a) : Agrees (ofChecked x) (pure a) := by
  subst h
  exact fun _ => rfl

theorem agrees_ofCheckedOption {x : Checked (Option α)} {a : Option α} (h : x = .ok a) :
    Agrees (ofCheckedOption x) (Protocol.ofOption a) := by
  subst h
  exact fun _ => rfl

theorem Agrees.bind {x : CheckedRun α} {p : Protocol α} {f : α → CheckedRun β} {g : α → Protocol β}
    (hx : Agrees x p) (h : ∀ a s s', p s = some (a, s') → Agrees (f a) (g a)) :
    Agrees (x >>= f) (p >>= g) := by
  intro s
  change (x s >>= fun r => match r with
    | none => return none
    | some (a, s) => f a s) = _
  rw [bind_of_eq (hx s), Protocol.bind_apply]
  cases hp : p s with
  | none => rfl
  | some r => exact h r.1 s r.2 hp r.2

theorem agrees_bind {p : Protocol α} {f : α → CheckedRun β} {g : α → Protocol β}
    (h : ∀ a, Agrees (f a) (g a)) : Agrees (ofProtocol p >>= f) (p >>= g) :=
  (agrees_ofProtocol p).bind fun a _ _ _ => h a

/-- What follows a sampler may use that it returned. -/
theorem agrees_bind_option {x : Checked (Option α)} {o : Option α} (hx : x = .ok o)
    {f : α → CheckedRun β} {g : α → Protocol β} (h : ∀ a, o = some a → Agrees (f a) (g a)) :
    Agrees (ofCheckedOption x >>= f) (Protocol.ofOption o >>= g) :=
  (agrees_ofCheckedOption hx).bind fun a _ _ hp => h a (Protocol.ofOption_eq_some_iff.1 hp).1

end CheckedRun

open CheckedRun

/-- The packed high parts, in a buffer for eight polynomials. -/
def checkedPackHigh (w : PolyVec .plain 8) : Checked Bytes :=
  Writer.run (Writer.vector .w1 w) (ByteString.zero 1024).bytes

theorem checkedPackHigh_eq {w : PolyVec .plain 8} (hw : w.Within 0 15) :
    checkedPackHigh w = .ok (PolyVec.pack .w1 w).bytes := by
  have hlength := (PolyVec.pack .w1 w).length_eq
  exact (Writer.appends_vector (by norm_num) .w1 (hw.mono (by norm_num) (by norm_num))).run
    ((ByteString.zero 1024).length_eq.trans hlength.symm)

/-! ## Key generation -/

def KeyPair.checkedGenerate (O : Oracle) (v : Variant) (seed : ByteString 32) :
    CheckedRun (KeyPair v) := do
  let material ← ofProtocol (Protocol.hash O [seed.bytes, v.seedSuffix] 128)
  let (rho, pos) ← ofChecked (readBytes material.bytes 32 0)
  let (rhoPrime, pos) ← ofChecked (readBytes material.bytes 64 pos)
  let (key, _) ← ofChecked (readBytes material.bytes 32 pos)
  let A ← ofCheckedOption (Matrix.checkedExpand O rho.bytes)
  let s1 ← ofCheckedOption (PolyVec.checkedUniformEta O 7 rhoPrime.bytes 0)
  let s2 ← ofCheckedOption (PolyVec.checkedUniformEta O 8 rhoPrime.bytes 7)
  let t ← ofChecked (checkedPublicVector A s1 s2)
  let pk ← ofChecked (PublicParts.checkedEncode ⟨rho, t.high⟩ (ByteString.zero 2592).bytes)
  let publicKey ← ofChecked (sized 2592 pk)
  let tr ← ofProtocol (Protocol.hash O [publicKey.bytes] v.trBytes)
  let sk ← ofChecked (SecretParts.checkedEncode ⟨rho, key, tr, s1, s2, t.low⟩
    (ByteString.zero (4832 + v.trBytes)).bytes)
  let secretKey ← ofChecked (sized (4832 + v.trBytes) sk)
  ofProtocol (Protocol.report .generatedKeyPair)
  return ⟨secretKey, publicKey⟩

theorem KeyPair.agrees_checkedGenerate (O : Oracle) (v : Variant) (seed : ByteString 32) :
    Agrees (checkedGenerate O v seed) (generate O v seed) := by
  apply agrees_bind
  intro material
  have hrho : 0 + 32 = 32 := rfl
  have hrhoPrime : 32 + 64 = 96 := rfl
  rw [ofChecked_bind (readBytes_eq material hrho (by norm_num))]
  simp only
  rw [ofChecked_bind (readBytes_eq material hrhoPrime (by norm_num))]
  simp only
  rw [ofChecked_bind (readBytes_eq material rfl (by norm_num))]
  apply agrees_bind_option (Matrix.checkedExpand_eq O _)
  intro A hA
  apply agrees_bind_option (PolyVec.checkedUniformEta_eq O _ (by decide))
  intro s1 h1
  apply agrees_bind_option (PolyVec.checkedUniformEta_eq O _ (by decide))
  intro s2 h2
  have hA := Matrix.within_expand hA
  have h1 := PolyVec.within_uniformEta h1
  have h2 := PolyVec.within_uniformEta h2
  have hhigh := within_publicVector_high hA h1 h2
  have hlow := within_publicVector_low hA h1 h2
  have hpk (rho : ByteString 32) : PublicParts.checkedEncode ⟨rho, (publicVector A s1 s2).high⟩
      (ByteString.zero 2592).bytes = .ok (PublicParts.encode ⟨rho, (publicVector A s1 s2).high⟩).bytes :=
    PublicParts.checkedEncode_eq ⟨rho, _⟩ (hhigh.mono (by norm_num) (by norm_num)) (ByteString.length_eq _)
  have hsk (rho key : ByteString 32) (tr : ByteString v.trBytes) :
      SecretParts.checkedEncode ⟨rho, key, tr, s1, s2, (publicVector A s1 s2).low⟩
        (ByteString.zero (4832 + v.trBytes)).bytes =
          .ok (SecretParts.encode ⟨rho, key, tr, s1, s2, (publicVector A s1 s2).low⟩).bytes :=
    SecretParts.checkedEncode_eq ⟨rho, key, tr, s1, s2, _⟩ (h1.mono (by norm_num) (by norm_num))
      (h2.mono (by norm_num) (by norm_num)) (hlow.mono (by norm_num) (by norm_num)) (ByteString.length_eq _)
  rw [ofChecked_bind (checkedPublicVector_eq hA h1 h2), ofChecked_bind (hpk _),
    ofChecked_bind (sized_eq _)]
  apply agrees_bind
  intro tr
  rw [ofChecked_bind (hsk _ _ _), ofChecked_bind (sized_eq _)]
  exact agrees_bind fun _ => agrees_pure _

/-! ## Signing -/

def SigningKey.checkedOfParts (O : Oracle) {tr : ℕ} (sk : SecretParts tr) : Checked (Option SigningKey) := do
  let A ← Matrix.checkedExpand O sk.rho.bytes
  let s1 ← sk.s1.checkedTransform
  let s2 ← sk.s2.checkedTransform
  let t0 ← sk.t0.checkedTransform
  return A.map fun A => ⟨A, s1, s2, t0⟩

def checkedSignRound (O : Oracle) (challengeBytes : ℕ) (k : SigningKey) (mu rhoPrime : ByteString 64)
    (nonce : UInt16) : CheckedRun (Option (SignatureParts challengeBytes)) := do
  let y ← ofChecked (PolyVec.checkedUniformGamma1 O rhoPrime.bytes nonce)
  let w ← ofChecked (checkedCommitment k.matrix y)
  let packed ← ofChecked (checkedPackHigh w.high)
  let hash ← ofProtocol (Protocol.hash O [mu.bytes, packed] challengeBytes)
  let c ← ofCheckedOption (Poly.checkedChallenge O hash.bytes)
  let c ← ofChecked c.checkedTransform
  let r ← ofChecked (k.checkedRespond c y w)
  return r.map fun r => ⟨hash, r.z, r.hint⟩

/-- The attempts are counted in a word; the number of the mask wraps around. -/
def checkedSignRounds (O : Oracle) (challengeBytes : ℕ) (k : SigningKey) (mu rhoPrime : ByteString 64) :
    (fuel n : ℕ) → CheckedRun (SignatureParts challengeBytes)
  | 0, _ => ofProtocol (Protocol.ofOption none)
  | fuel + 1, n => do
    let attempts ← ofChecked (unsigned 32 (n + 1))
    match ← checkedSignRound O challengeBytes k mu rhoPrime n.toUInt16 with
    | some parts =>
      ofProtocol (Protocol.report (.signatureAccepted attempts))
      return parts
    | none => checkedSignRounds O challengeBytes k mu rhoPrime fuel (n + 1)

/-- The loop over a message representative with a secret key, at most for `rounds` rounds. -/
def signUpTo (O : Oracle) (v : Variant) (sk : SecretKey v) (mu rhoPrime : ByteString 64)
    (rounds : UInt32) : Protocol (SignatureParts v.challengeBytes) := do
  let k ← Protocol.ofOption (SigningKey.ofParts O (SecretParts.decode sk))
  signRounds O v.challengeBytes k mu rhoPrime rounds.toNat 0

def checkedSignUpTo (O : Oracle) (v : Variant) (sk : SecretKey v) (mu rhoPrime : ByteString 64)
    (rounds : UInt32) : CheckedRun (SignatureParts v.challengeBytes) := do
  let parts ← ofChecked (SecretParts.checkedDecode v.trBytes sk.bytes)
  let k ← ofCheckedOption (SigningKey.checkedOfParts O parts)
  checkedSignRounds O v.challengeBytes k mu rhoPrime rounds.toNat 0

def checkedSignFramed (O : Oracle) (v : Variant) (sk : SecretKey v) (frame message randomness : Bytes) :
    CheckedRun (Signature v) := do
  let parts ← ofChecked (SecretParts.checkedDecode v.trBytes sk.bytes)
  let mu ← ofProtocol (Protocol.hash O [parts.tr.bytes, frame, message] 64)
  let rhoPrime ← ofProtocol (Protocol.hash O [parts.key.bytes, randomness, mu.bytes] 64)
  let k ← ofCheckedOption (SigningKey.checkedOfParts O parts)
  let signature ← checkedSignRounds O v.challengeBytes k mu rhoPrime 65536 0
  let bytes ← ofChecked (signature.checkedEncode (ByteString.zero (4563 + v.challengeBytes)).bytes)
  ofChecked (sized (4563 + v.challengeBytes) bytes)

section Signing

variable {O : Oracle} {t : SigningTask} {length : ℕ}

theorem SigningKey.checkedOfParts_eq {tr : ℕ} {sk : SecretParts tr} (h1 : sk.s1.Within (-5) 2)
    (h2 : sk.s2.Within (-5) 2) (h0 : sk.t0.Within (-4095) 4096) :
    checkedOfParts O sk = .ok (ofParts O sk) := by
  have h1' := h1.mono le_rfl (by norm_num : (2 : ℤ) ≤ 5)
  have h2' := h2.mono le_rfl (by norm_num : (2 : ℤ) ≤ 5)
  have h0' := h0.mono (by norm_num : (-4096 : ℤ) ≤ -4095) le_rfl
  rw [checkedOfParts, bind_of_eq (Matrix.checkedExpand_eq O _),
    bind_of_eq (PolyVec.checkedTransform_eq h1' (by norm_num)),
    bind_of_eq (PolyVec.checkedTransform_eq h2' (by norm_num)),
    bind_of_eq (PolyVec.checkedTransform_eq h0' (by norm_num))]
  rfl

/-- **A signing round** of a task in range. -/
theorem agrees_checkedSignRound (ht : t.InRange) (nonce : UInt16) :
    Agrees (checkedSignRound O length t.key t.mu t.rhoPrime nonce)
      (signRound O length t.key t.mu t.rhoPrime nonce) := by
  have hA : t.key.matrix.Within 0 8380416 := ht.matrix
  have hy := PolyVec.within_uniformGamma1 O t.rhoPrime.bytes nonce
  have hy' := hy.mono (by norm_num : (-524288 : ℤ) ≤ -524287) le_rfl
  rw [checkedSignRound, ofChecked_bind (PolyVec.checkedUniformGamma1_eq O _ _),
    ofChecked_bind (checkedCommitment_eq hA hy' (by norm_num)),
    ofChecked_bind (checkedPackHigh_eq (within_commitment_high hA hy' (by norm_num)))]
  apply agrees_bind
  intro hash
  apply agrees_bind_option (Poly.checkedChallenge_eq O _)
  intro c hc
  have hc := Poly.within_challenge hc
  have hc' := hc.mono (by norm_num : (-1 : ℤ) ≤ -1) le_rfl
  have hrespond : t.key.checkedRespond c.transform _ (commitment t.key.matrix _) =
      .ok (t.key.respond c.transform _ _) :=
    SigningKey.checkedRespond_eq ht.s1 ht.s2 ht.t0 hy hc (within_commitment_low hA hy' (by norm_num))
  rw [ofChecked_bind (Poly.checkedTransform_eq hc' (by norm_num)), ofChecked_bind hrespond]
  exact agrees_pure _

theorem inRange_of_signRound (ht : t.InRange) {nonce : UInt16} {p : SignatureParts length} {s s' : Session}
    (h : signRound O length t.key t.mu t.rhoPrime nonce s = some (some p, s')) : p.InRange := by
  obtain ⟨c, -, hacc, hp⟩ := SigningTask.exists_acceptable_of_signRound ht h
  rw [hp]
  exact hacc.inRange _

theorem inRange_of_signRounds (ht : t.InRange) {fuel n : ℕ} {p : SignatureParts length} {s s' : Session}
    (h : signRounds O length t.key t.mu t.rhoPrime fuel n s = some (p, s')) : p.InRange := by
  induction fuel generalizing n s with
  | zero => exact absurd h (by simp [signRounds])
  | succ fuel ih =>
    obtain ⟨r, s1, hr, h⟩ := Protocol.bind_eq_some_iff.1 h
    cases r with
    | none => exact ih h
    | some q =>
      obtain ⟨-, s2, -, h⟩ := Protocol.bind_eq_some_iff.1 h
      obtain rfl := (Prod.mk.inj (Option.some_inj.1 h)).1
      exact inRange_of_signRound ht hr

theorem agrees_checkedSignRounds (ht : t.InRange) {fuel n : ℕ} (h : n + fuel < 4294967296) :
    Agrees (checkedSignRounds O length t.key t.mu t.rhoPrime fuel n)
      (signRounds O length t.key t.mu t.rhoPrime fuel n) := by
  induction fuel generalizing n with
  | zero => exact agrees_ofProtocol _
  | succ fuel ih =>
    rw [checkedSignRounds, ofChecked_bind (unsigned_eq (by omega))]
    apply (agrees_checkedSignRound ht n.toUInt16).bind
    intro r _ _ _
    cases r with
    | none => exact ih (by omega)
    | some p => exact agrees_bind fun _ => agrees_pure p

theorem SigningKey.checkedOfParts_decode (O : Oracle) {v : Variant} (sk : SecretKey v) :
    checkedOfParts O (SecretParts.decode sk) = .ok (ofParts O (SecretParts.decode sk)) :=
  checkedOfParts_eq (SecretParts.within_s1_decode sk) (SecretParts.within_s2_decode sk)
    (SecretParts.within_t0_decode sk)

/-- **The loop, for as many rounds as the number of attempts fits its word.** A loop without an
acceptable round goes on after the rounds have begun to repeat. -/
theorem agrees_checkedSignUpTo (O : Oracle) (v : Variant) (sk : SecretKey v) (mu rhoPrime : ByteString 64)
    (rounds : UInt32) :
    Agrees (checkedSignUpTo O v sk mu rhoPrime rounds) (signUpTo O v sk mu rhoPrime rounds) := by
  rw [checkedSignUpTo, ofChecked_bind (SecretParts.checkedDecode_eq sk)]
  apply agrees_bind_option (SigningKey.checkedOfParts_decode O sk)
  intro k hk
  obtain ⟨t, ht, rfl, rfl, rfl, -⟩ := SigningKey.exists_task hk mu rhoPrime
  have hrounds : 0 + rounds.toNat < 4294967296 := by
    rw [Nat.zero_add]
    exact rounds.toNat_lt
  exact agrees_checkedSignRounds ht hrounds

theorem agrees_checkedSignFramed (O : Oracle) (v : Variant) (sk : SecretKey v)
    (frame message randomness : Bytes) :
    Agrees (checkedSignFramed O v sk frame message randomness)
      (signFramed O v sk frame message randomness) := by
  rw [checkedSignFramed, ofChecked_bind (SecretParts.checkedDecode_eq sk)]
  apply agrees_bind
  intro mu
  apply agrees_bind
  intro rhoPrime
  apply agrees_bind_option (SigningKey.checkedOfParts_decode O sk)
  intro k hk
  obtain ⟨t, ht, rfl, rfl, rfl, -⟩ := SigningKey.exists_task hk mu rhoPrime
  apply (agrees_checkedSignRounds ht (by norm_num)).bind
  intro p s s' hp
  rw [ofChecked_bind (SignatureParts.checkedEncode_eq p (inRange_of_signRounds ht hp)
    (ByteString.length_eq _))]
  exact agrees_ofChecked (sized_eq _)

end Signing

namespace Standard

/-- The length of the context is written as a byte. -/
def checkedSign (O : Oracle) (sk : SecretKey .standard) (message context : Bytes)
    (randomness : ByteString 32) : CheckedRun (Except Error (Signature .standard)) :=
  if maxContextBytes < context.length then return .error (.contextTooLong context.length)
  else do
    let length ← ofChecked (byte context.length)
    let signature ← checkedSignFramed O .standard sk ([0, length] ++ context) message randomness.bytes
    return .ok signature

theorem agrees_checkedSign (O : Oracle) (sk : SecretKey .standard) (message context : Bytes)
    (randomness : ByteString 32) :
    Agrees (checkedSign O sk message context randomness) (sign O sk message context randomness) := by
  unfold checkedSign sign
  by_cases h : maxContextBytes < context.length
  · rw [if_pos h, if_pos h]
    exact agrees_pure _
  · rw [if_neg h, if_neg h, ofChecked_bind (byte_eq (Nat.lt_succ_of_le (Nat.le_of_not_lt h)))]
    exact (agrees_checkedSignFramed O .standard sk _ _ _).bind fun _ _ _ _ => agrees_pure _

end Standard

namespace Legacy

def checkedSign (O : Oracle) (sk : SecretKey .legacy) (message : Bytes) : CheckedRun (Signature .legacy) :=
  checkedSignFramed O .legacy sk [] message []

theorem agrees_checkedSign (O : Oracle) (sk : SecretKey .legacy) (message : Bytes) :
    Agrees (checkedSign O sk message) (sign O sk message) :=
  agrees_checkedSignFramed O .legacy sk [] message []

end Legacy

/-! ## Verification -/

def checkedReject (cause : Rejection) : CheckedRun Bool := ofProtocol (reject cause)

def checkedParseSigned (v : Variant) (signature publicKey : Bytes) :
    Checked (Except Rejection (SignatureParts v.challengeBytes × PublicKey)) :=
  if signature.length ≠ 4563 + v.challengeBytes then
    return .error (.wrongSignatureLength signature.length)
  else
    match ByteString.ofBytes? 2592 publicKey with
    | none => return .error (.wrongPublicKeyLength publicKey.length)
    | some pk => do
      match ← SignatureParts.checkedDecode v.challengeBytes signature with
      | none => return .error .malformedHint
      | some parts => return .ok (parts, pk)

def checkedVerifyParts (O : Oracle) {c : ℕ} (parts : SignatureParts c) (publicKey : PublicKey)
    (mu : ByteString 64) : CheckedRun Bool := do
  let bound ← ofChecked (Checked.sub gamma1 beta)
  if ← ofChecked (parts.z.checkedNormBelow bound) then
    ofProtocol (Protocol.report (.signatureDecoded parts.hint.weight))
    let pk ← ofChecked (PublicParts.checkedDecode publicKey.bytes)
    let A ← ofCheckedOption (Matrix.checkedExpand O pk.rho.bytes)
    let c ← ofCheckedOption (Poly.checkedChallenge O parts.challenge.bytes)
    let c ← ofChecked c.checkedTransform
    let w1 ← ofChecked (checkedRecoverHigh A c pk.t1 parts.z parts.hint)
    let packed ← ofChecked (checkedPackHigh w1)
    let again ← ofProtocol (Protocol.hash O [mu.bytes, packed] _)
    if again = parts.challenge then return true else checkedReject .challengeMismatch
  else checkedReject .responseOutOfRange

def checkedVerifyFramed (O : Oracle) (v : Variant) (signature frame message publicKey : Bytes) :
    CheckedRun Bool := do
  match ← ofChecked (checkedParseSigned v signature publicKey) with
  | .error cause => checkedReject cause
  | .ok (parts, pk) =>
    let tr ← ofProtocol (Protocol.hash O [pk.bytes] v.trBytes)
    let mu ← ofProtocol (Protocol.hash O [tr.bytes, frame, message] 64)
    checkedVerifyParts O parts pk mu

theorem checkedParseSigned_eq (v : Variant) (signature publicKey : Bytes) :
    checkedParseSigned v signature publicKey = .ok (parseSigned v signature publicKey) := by
  unfold checkedParseSigned parseSigned
  by_cases hlength : signature.length = 4563 + v.challengeBytes
  swap
  · rw [if_pos hlength, if_pos hlength]
    rfl
  · rw [if_neg (not_not.2 hlength), if_neg (not_not.2 hlength)]
    cases ByteString.ofBytes? 2592 publicKey with
    | none => rfl
    | some pk =>
      simp only
      rw [bind_of_eq (SignatureParts.checkedDecode_eq _)]
      cases SignatureParts.decode? v.challengeBytes signature with
      | none => rfl
      | some parts => rfl

theorem agrees_checkedVerifyParts (O : Oracle) {length : ℕ} {parts : SignatureParts length}
    (hz : parts.z.Within (-524287) 524288) (publicKey : PublicKey) (mu : ByteString 64) :
    Agrees (checkedVerifyParts O parts publicKey mu) (verifyParts O parts publicKey mu) := by
  have ht := PublicParts.within_t1_decode publicKey
  have hz' := hz.mono (by norm_num : (-524288 : ℤ) ≤ -524287) le_rfl
  unfold checkedVerifyParts verifyParts
  rw [ofChecked_bind checked_responseBound,
    ofChecked_bind (PolyVec.checkedNormBelow_eq (hz.mono (by norm_num) (by norm_num)) (by decide))]
  by_cases hbelow : parts.z.normBelow (gamma1 - beta)
  swap
  · rw [if_neg hbelow, if_neg hbelow]
    exact agrees_ofProtocol _
  · rw [if_pos hbelow, if_pos hbelow]
    apply agrees_bind
    intro _
    rw [ofChecked_bind (PublicParts.checkedDecode_eq publicKey)]
    apply agrees_bind_option (Matrix.checkedExpand_eq O _)
    intro A hA
    apply agrees_bind_option (Poly.checkedChallenge_eq O _)
    intro c hc
    have hA := Matrix.within_expand hA
    have hc := Poly.within_challenge hc
    rw [ofChecked_bind (Poly.checkedTransform_eq (hc.mono (by norm_num) le_rfl) (by norm_num)),
      ofChecked_bind (checkedRecoverHigh_eq hA hc ht hz' _),
      ofChecked_bind (checkedPackHigh_eq (within_recoverHigh hA hc ht hz' _))]
    apply agrees_bind
    intro again
    by_cases hagain : again = parts.challenge
    · rw [if_pos hagain, if_pos hagain]
      exact agrees_pure _
    · rw [if_neg hagain, if_neg hagain]
      exact agrees_ofProtocol _

theorem agrees_checkedVerifyFramed (O : Oracle) (v : Variant) (signature frame message publicKey : Bytes) :
    Agrees (checkedVerifyFramed O v signature frame message publicKey)
      (verifyFramed O v signature frame message publicKey) := by
  unfold checkedVerifyFramed verifyFramed
  rw [ofChecked_bind (checkedParseSigned_eq v signature publicKey)]
  cases h : parseSigned v signature publicKey with
  | error cause => exact agrees_ofProtocol _
  | ok signed =>
    have hz := SignatureParts.within_z_decode? (parseSigned_eq_ok_iff.1 h).1
    exact agrees_bind fun _ => agrees_bind fun mu => agrees_checkedVerifyParts O hz signed.2 mu

/-- A context that is too long is rejected before its length is written as a byte. -/
def Standard.checkedVerify (O : Oracle) (signature message context publicKey : Bytes) : CheckedRun Bool :=
  if maxContextBytes < context.length then checkedReject (.contextTooLong context.length)
  else do
    let length ← ofChecked (byte context.length)
    checkedVerifyFramed O .standard signature ([0, length] ++ context) message publicKey

def Legacy.checkedVerify (O : Oracle) (signature message publicKey : Bytes) : CheckedRun Bool :=
  checkedVerifyFramed O .legacy signature [] message publicKey

theorem Standard.agrees_checkedVerify (O : Oracle) (signature message context publicKey : Bytes) :
    Agrees (checkedVerify O signature message context publicKey)
      (verify O signature message context publicKey) := by
  unfold checkedVerify verify
  by_cases h : maxContextBytes < context.length
  · rw [if_pos h, if_pos h]
    exact agrees_ofProtocol _
  · rw [if_neg h, if_neg h, ofChecked_bind (byte_eq (Nat.lt_succ_of_le (Nat.le_of_not_lt h)))]
    exact agrees_checkedVerifyFramed O .standard signature _ message publicKey

theorem Legacy.agrees_checkedVerify (O : Oracle) (signature message publicKey : Bytes) :
    Agrees (checkedVerify O signature message publicKey) (verify O signature message publicKey) :=
  agrees_checkedVerifyFramed O .legacy signature [] message publicKey

/-- **No result overflows and no index is out of bounds** in key generation, signing and
verification: whatever the streams are, for every seed, every secret key of the right length, and
any message, context, signature and public key. Signing ends within `2 ^ 16` rounds or never; its
loop is followed beyond them. -/
theorem checked_agrees (O : Oracle) :
    (∀ v seed, Agrees (KeyPair.checkedGenerate O v seed) (KeyPair.generate O v seed)) ∧
      (∀ sk message context randomness, Agrees (Standard.checkedSign O sk message context randomness)
        (Standard.sign O sk message context randomness)) ∧
      (∀ sk message, Agrees (Legacy.checkedSign O sk message) (Legacy.sign O sk message)) ∧
      (∀ v sk mu rhoPrime rounds, Agrees (checkedSignUpTo O v sk mu rhoPrime rounds)
        (signUpTo O v sk mu rhoPrime rounds)) ∧
      (∀ signature message context publicKey,
        Agrees (Standard.checkedVerify O signature message context publicKey)
          (Standard.verify O signature message context publicKey)) ∧
      ∀ signature message publicKey, Agrees (Legacy.checkedVerify O signature message publicKey)
        (Legacy.verify O signature message publicKey) :=
  ⟨KeyPair.agrees_checkedGenerate O, Standard.agrees_checkedSign O, Legacy.agrees_checkedSign O,
    agrees_checkedSignUpTo O, Standard.agrees_checkedVerify O, Legacy.agrees_checkedVerify O⟩

end LatticeSignature
