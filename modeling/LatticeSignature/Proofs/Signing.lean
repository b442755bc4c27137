import LatticeSignature.Proofs.ChallengeProduct
import Mathlib.Data.Nat.Periodic

/-!
# The signing loop

The only thing that changes from round to round is the number of the mask, taken modulo `2 ^ 16`. The
loop answers in the first acceptable round, and if none of the first `2 ^ 16` rounds is acceptable it
has nothing to answer, however long it goes on.

* `SigningTask`: what all rounds of a signature share; `mask`, `challenge`, `round`, `answer` of
  round `n`.
* **`SigningTask.signRound_apply`**: one round computes its answer.
* **`SigningTask.signRounds_of_first`**, `SigningTask.signRounds_of_none`: the loop.
* `SigningTask.answer_add_period`, **`disjoint_roundNonces`**: rounds repeat after `2 ^ 16`, and no nonce
  is used twice before that.
* **`SigningTask.acceptable_repeating_iff`**: which rounds are acceptable under streams of one byte.
* **`sign_first_acceptable`**.
-/

namespace LatticeSignature

/-! ## Nonces -/

/-- The nonce of entry `i` of the mask in round `n`. -/
def maskNonce (n i : ℕ) : UInt16 := (7 * n + i).toUInt16

/-- The nonces of round `n`. -/
def roundNonces (n : ℕ) : Finset UInt16 := Finset.univ.image fun i : Fin 7 => maskNonce n i

theorem maskNonce_add_period (n i : ℕ) : maskNonce (n + 65536) i = maskNonce n i := by
  apply UInt16.toNat_inj.1
  rw [maskNonce, maskNonce, UInt16.toNat_ofNat', UInt16.toNat_ofNat']
  omega

theorem maskNonce_eq (n i : ℕ) : 7 * n.toUInt16 + i.toUInt16 = maskNonce n i := by
  apply UInt16.toNat_inj.1
  rw [maskNonce, UInt16.toNat_add, UInt16.toNat_mul, UInt16.toNat_ofNat', UInt16.toNat_ofNat',
    UInt16.toNat_ofNat']
  change (7 * (n % 65536) % 65536 + i % 65536) % 65536 = (7 * n + i) % 65536
  omega

/-- **No nonce is used in two rounds**, as long as the nonces have not wrapped around. -/
theorem disjoint_roundNonces {m n : ℕ} (hm : m < 9362) (hn : n < 9362) (hmn : m ≠ n) :
    Disjoint (roundNonces m) (roundNonces n) := by
  rw [Finset.disjoint_left]
  intro x hx hx'
  obtain ⟨i, -, rfl⟩ := Finset.mem_image.1 hx
  obtain ⟨k, -, heq⟩ := Finset.mem_image.1 hx'
  have h := congrArg UInt16.toNat heq
  rw [maskNonce, maskNonce, UInt16.toNat_ofNat', UInt16.toNat_ofNat',
    Nat.mod_eq_of_lt (by norm_num; omega), Nat.mod_eq_of_lt (by norm_num; omega)] at h
  omega

/-! ## The rounds of a signature -/

/-- What all rounds of a signature share. -/
structure SigningTask where
  matrix : Matrix
  s1 : PolyVec .plain 7
  s2 : PolyVec .plain 8
  t0 : PolyVec .plain 8
  /-- The message representative. -/
  mu : ByteString 64
  /-- The seed of the masks. -/
  rhoPrime : ByteString 64

namespace SigningTask

variable (O : Oracle) (t : SigningTask) (length n : ℕ)

/-- The signing key. -/
def key : SigningKey := ⟨t.matrix, t.s1.transform, t.s2.transform, t.t0.transform⟩

/-- The parts lie in the ranges that any secret key keeps to. -/
structure InRange : Prop where
  matrix : t.matrix.Within 0 8380416
  s1 : t.s1.Within (-5) 2
  s2 : t.s2.Within (-5) 2
  t0 : t.t0.Within (-4095) 4096

/-- The mask of round `n`. -/
def mask : PolyVec .plain 7 :=
  .ofFn fun i => Poly.uniformGamma1 O t.rhoPrime.bytes (maskNonce n i)

/-- The challenge hash of round `n`, which is `length` bytes long: the hash of the high bits of
`A y`. -/
noncomputable def challengeHash : ByteString length :=
  O.shake256.squeeze (t.mu.bytes ++
    encodeHigh fun i => (t.matrix.product (t.mask O n).element i).highBits) length

/-- The challenge of round `n`. -/
noncomputable def challenge : Option (Poly .plain) :=
  Poly.challenge O (t.challengeHash O length n).bytes

/-- Round `n`, with its challenge. -/
noncomputable def round (c : Poly .plain) : Round :=
  Round.ofKey t.matrix t.s1 t.s2 t.t0 (t.mask O n) c

/-- **Round `n` is acceptable.** -/
def Acceptable : Prop := ∃ c, t.challenge O length n = some c ∧ (t.round O n c).Acceptable

/-- The parts of the signature that round `n` answers with. -/
noncomputable def parts (c : Poly .plain) : SignatureParts length :=
  ⟨t.challengeHash O length n, (t.round O n c).centredResponse, (t.round O n c).hint⟩

open Classical in
/-- The answer of round `n`. -/
noncomputable def answer : Option (SignatureParts length) :=
  (t.challenge O length n).bind fun c =>
    if (t.round O n c).Acceptable then some (t.parts O length n c) else none

variable {O t length n}

theorem answer_eq_some_iff {p : SignatureParts length} :
    t.answer O length n = some p ↔
      ∃ c, t.challenge O length n = some c ∧ (t.round O n c).Acceptable ∧ p = t.parts O length n c := by
  rw [answer, Option.bind_eq_some_iff]
  refine exists_congr fun c => and_congr_right fun _ => ?_
  split
  · rename_i hacc
    exact ⟨fun h => ⟨hacc, (Option.some_inj.1 h).symm⟩, fun h => by rw [h.2]⟩
  · rename_i hacc
    exact ⟨fun h => absurd h (by simp), fun h => absurd h.1 hacc⟩

theorem acceptable_iff_isSome : t.Acceptable O length n ↔ (t.answer O length n).isSome := by
  rw [Option.isSome_iff_exists]
  constructor
  · rintro ⟨c, hc, hacc⟩
    exact ⟨_, answer_eq_some_iff.2 ⟨c, hc, hacc, rfl⟩⟩
  · rintro ⟨p, hp⟩
    obtain ⟨c, hc, hacc, -⟩ := answer_eq_some_iff.1 hp
    exact ⟨c, hc, hacc⟩

theorem answer_eq_none_iff : t.answer O length n = none ↔ ¬t.Acceptable O length n := by
  rw [acceptable_iff_isSome, Option.not_isSome_iff_eq_none]

/-! ## Periodicity -/

theorem mask_add_period : t.mask O (n + 65536) = t.mask O n := by
  simp only [mask, maskNonce_add_period]

theorem answer_add_period : t.answer O length (n + 65536) = t.answer O length n := by
  refine Option.ext fun p => ?_
  simp only [answer_eq_some_iff, challenge, challengeHash, parts, round, mask_add_period]

theorem answer_mod_period (n : ℕ) : t.answer O length (n % 65536) = t.answer O length n :=
  Function.Periodic.map_mod_nat (fun _ => answer_add_period) n

theorem challenge_mod_period (n : ℕ) : t.challenge O length (n % 65536) = t.challenge O length n := by
  refine Function.Periodic.map_mod_nat (f := t.challenge O length) (fun m => ?_) n
  simp only [challenge, challengeHash, mask_add_period]

theorem isSome_challenge (h : ∀ m < 65536, (t.challenge O length m).isSome) (n : ℕ) :
    (t.challenge O length n).isSome := by
  rw [← challenge_mod_period]
  exact h _ (Nat.mod_lt _ (by norm_num))

/-! ## The loop -/

theorem uniformGamma1_eq_mask : PolyVec.uniformGamma1 O t.rhoPrime.bytes n.toUInt16 = t.mask O n := by
  refine congrArg Vector.ofFn (funext fun i => ?_)
  rw [maskNonce_eq]

theorem within_mask : (t.mask O n).Within (-524287) 524288 := by
  rw [← uniformGamma1_eq_mask]
  exact PolyVec.within_uniformGamma1 _ _ _

theorem squeeze_eq_challengeHash (ht : t.InRange) : O.shake256.squeeze [t.mu.bytes,
    (PolyVec.pack .w1 (commitment t.matrix (t.mask O n)).high).bytes].flatten length =
      t.challengeHash O length n := by
  rw [bytes_pack_commitment ht.matrix (within_mask.mono (by norm_num) le_rfl)
    (by norm_num : (524288 : ℤ) ≤ _), challengeHash]
  simp

/-- **A round computes its answer**, and leaves the session as it was. -/
theorem signRound_apply (ht : t.InRange) (hstop : (t.challenge O length n).isSome)
    (events : List Event) :
    signRound O length t.key t.mu t.rhoPrime n.toUInt16 ⟨.empty, events⟩ =
      some (t.answer O length n, ⟨.empty, events⟩) := by
  obtain ⟨c, hc⟩ := Option.isSome_iff_exists.1 hstop
  have hrespond := fun a => respond_eq_some_iff (y := t.mask O n) (a := a) ht.matrix ht.s1 ht.s2 ht.t0
    within_mask (Poly.within_challenge hc)
  have hanswer : (t.key.respond c.transform (t.mask O n) (commitment t.matrix (t.mask O n))).map
      (fun r => (⟨t.challengeHash O length n, r.z, r.hint⟩ : SignatureParts length)) =
      t.answer O length n := by
    refine Option.ext fun p => ?_
    rw [Option.map_eq_some_iff, answer_eq_some_iff]
    constructor
    · rintro ⟨a, ha, rfl⟩
      obtain ⟨hacc, rfl⟩ := (hrespond a).1 ha
      exact ⟨c, hc, hacc, rfl⟩
    · rintro ⟨c', hc', hacc, rfl⟩
      obtain rfl := Option.some_inj.1 (hc.symm.trans hc')
      exact ⟨_, (hrespond _).2 ⟨hacc, rfl⟩, rfl⟩
  have hmatrix : t.key.matrix = t.matrix := rfl
  unfold signRound
  simp only [uniformGamma1_eq_mask, hmatrix]
  rw [Protocol.bind_of_apply (Protocol.hash_apply ..), squeeze_eq_challengeHash ht,
    show Poly.challenge O (t.challengeHash O length n).bytes = some c from hc,
    Protocol.bind_of_apply (Protocol.ofOption_some ..), Protocol.pure_apply, hanswer]

/-- **An accepted round was acceptable**, whatever session it began in. -/
theorem exists_acceptable_of_signRound (ht : t.InRange) {nonce : UInt16} {p : SignatureParts length}
    {s s' : Session} (h : signRound O length t.key t.mu t.rhoPrime nonce s = some (some p, s')) :
    ∃ c, Poly.challenge O p.challenge.bytes = some c ∧
      let r := Round.ofKey t.matrix t.s1 t.s2 t.t0 (PolyVec.uniformGamma1 O t.rhoPrime.bytes nonce) c
      r.Acceptable ∧ p = ⟨p.challenge, r.centredResponse, r.hint⟩ := by
  obtain ⟨hash, s1, -, h⟩ := Protocol.bind_eq_some_iff.1 h
  obtain ⟨c, s2, hc, h⟩ := Protocol.bind_eq_some_iff.1 h
  obtain ⟨a, ha, rfl⟩ := Option.map_eq_some_iff.1 (Prod.mk.inj (Option.some_inj.1 h)).1
  have hc := (Protocol.ofOption_eq_some_iff.1 hc).1
  obtain ⟨hacc, rfl⟩ := (respond_eq_some_iff ht.matrix ht.s1 ht.s2 ht.t0
    (PolyVec.within_uniformGamma1 O t.rhoPrime.bytes nonce) (Poly.within_challenge hc)).1 ha
  exact ⟨c, hc, hacc, rfl⟩

theorem isSome_challenge_of_signRound (ht : t.InRange) {events : List Event}
    {r : Option (SignatureParts length) × Session}
    (h : signRound O length t.key t.mu t.rhoPrime n.toUInt16 ⟨.empty, events⟩ = some r) :
    (t.challenge O length n).isSome := by
  have hmatrix : t.key.matrix = t.matrix := rfl
  unfold signRound at h
  simp only [uniformGamma1_eq_mask, hmatrix] at h
  rw [Protocol.bind_of_apply (Protocol.hash_apply ..), squeeze_eq_challengeHash ht] at h
  obtain ⟨c, _, hc, -⟩ := Protocol.bind_eq_some_iff.1 h
  exact Option.isSome_iff_exists.2 ⟨c, (Protocol.ofOption_eq_some_iff.1 hc).1⟩

theorem signRounds_succ (ht : t.InRange) (hstop : (t.challenge O length n).isSome) (fuel : ℕ)
    (events : List Event) :
    signRounds O length t.key t.mu t.rhoPrime (fuel + 1) n ⟨.empty, events⟩ =
      match t.answer O length n with
      | some p => some (p, ⟨.empty, events ++ [.signatureAccepted (n + 1)]⟩)
      | none => signRounds O length t.key t.mu t.rhoPrime fuel (n + 1) ⟨.empty, events⟩ := by
  rw [signRounds, Protocol.bind_of_apply (signRound_apply ht hstop events)]
  cases t.answer O length n <;> rfl

/-- **The loop answers in the first acceptable round.** -/
theorem signRounds_of_first (ht : t.InRange) (hstop : ∀ m, (t.challenge O length m).isSome)
    {fuel first m : ℕ} {p : SignatureParts length} (hm : t.answer O length m = some p)
    (hfirst : ∀ k, first ≤ k → k < m → t.answer O length k = none) (hle : first ≤ m)
    (hlt : m < first + fuel) (events : List Event) :
    signRounds O length t.key t.mu t.rhoPrime fuel first ⟨.empty, events⟩ =
      some (p, ⟨.empty, events ++ [.signatureAccepted (m + 1)]⟩) := by
  induction fuel generalizing first with
  | zero => omega
  | succ fuel ih =>
    rw [signRounds_succ ht (hstop first)]
    by_cases heq : first = m
    · subst heq
      rw [hm]
    · rw [hfirst first le_rfl (by omega)]
      exact ih (fun k hk => hfirst k (by omega)) (by omega) (by omega)

theorem exists_answer_of_signRounds (ht : t.InRange) {fuel first : ℕ} {events : List Event}
    {p : SignatureParts length} {s : Session}
    (h : signRounds O length t.key t.mu t.rhoPrime fuel first ⟨.empty, events⟩ = some (p, s)) :
    ∃ m, t.answer O length m = some p := by
  induction fuel generalizing first with
  | zero => exact absurd h (by simp [signRounds])
  | succ fuel ih =>
    obtain ⟨r, s', hr, -⟩ := Protocol.bind_eq_some_iff.1 h
    rw [signRounds_succ ht (isSome_challenge_of_signRound ht hr)] at h
    cases ha : t.answer O length first with
    | some p' =>
      rw [ha] at h
      exact ⟨first, ha.trans (congrArg some (Prod.mk.inj (Option.some_inj.1 h)).1)⟩
    | none =>
      rw [ha] at h
      exact ih h

theorem signRounds_of_none (ht : t.InRange) (hstop : ∀ m, (t.challenge O length m).isSome)
    {fuel first : ℕ} (h : ∀ k, first ≤ k → k < first + fuel → t.answer O length k = none)
    (events : List Event) :
    signRounds O length t.key t.mu t.rhoPrime fuel first ⟨.empty, events⟩ = none := by
  induction fuel generalizing first with
  | zero => rfl
  | succ fuel ih =>
    rw [signRounds_succ ht (hstop first), h first le_rfl (by omega)]
    exact ih fun k hk hk' => h k (by omega) (by omega)

/-- **The loop ends exactly if one of the first `2 ^ 16` rounds is acceptable**, with enough fuel. -/
theorem signRounds_isSome_iff (ht : t.InRange) (hstop : ∀ m, (t.challenge O length m).isSome)
    (fuel : ℕ) (events : List Event) :
    (signRounds O length t.key t.mu t.rhoPrime fuel 0 ⟨.empty, events⟩).isSome ↔
      ∃ n < fuel, n < 65536 ∧ t.Acceptable O length n := by
  classical
  by_cases hex : ∃ n < fuel, t.Acceptable O length n
  · obtain ⟨m, ⟨hm, hacc⟩, hmin⟩ := Nat.findX hex
    obtain ⟨p, hp⟩ := Option.isSome_iff_exists.1 (acceptable_iff_isSome.1 hacc)
    have hrun := signRounds_of_first ht hstop hp
      (fun k _ hk => answer_eq_none_iff.2 fun h => hmin k hk ⟨by omega, h⟩) (Nat.zero_le m)
      (by omega : m < 0 + fuel) events
    rw [hrun]
    refine ⟨fun _ => ⟨m, hm, ?_, hacc⟩, fun _ => rfl⟩
    by_contra hbig
    refine hmin (m % 65536) (by omega) ⟨by omega, ?_⟩
    rw [acceptable_iff_isSome, answer_mod_period]
    exact acceptable_iff_isSome.1 hacc
  · rw [signRounds_of_none ht hstop fun k _ hk => answer_eq_none_iff.2 fun h =>
      hex ⟨k, by omega, h⟩]
    exact ⟨fun h => absurd h (by simp), fun ⟨n, hn, _, hacc⟩ => absurd ⟨n, hn, hacc⟩ hex⟩

/-! ## Signing -/

/-- The task of signing `message` behind `frame` with a secret key whose matrix is `A`. -/
def ofSecretKey (O : Oracle) {v : Variant} (sk : SecretKey v) (frame message randomness : Bytes)
    (A : Matrix) : SigningTask :=
  let parts := SecretParts.decode sk
  let mu := O.shake256.squeeze (parts.tr.bytes ++ frame ++ message) 64
  ⟨A, parts.s1, parts.s2, parts.t0, mu,
    O.shake256.squeeze (parts.key.bytes ++ randomness ++ mu.bytes) 64⟩

section SecretKey

variable {v : Variant} {sk : SecretKey v} {frame message randomness : Bytes} {A : Matrix}

theorem inRange_ofSecretKey (hA : Matrix.expand O (SecretParts.decode sk).rho.bytes = some A) :
    (ofSecretKey O sk frame message randomness A).InRange :=
  ⟨Matrix.within_expand hA, SecretParts.within_s1_decode sk, SecretParts.within_s2_decode sk,
    SecretParts.within_t0_decode sk⟩

variable (frame message randomness) in
theorem signFramed_apply (hA : Matrix.expand O (SecretParts.decode sk).rho.bytes = some A)
    (events : List Event) :
    let t := ofSecretKey O sk frame message randomness A
    signFramed O v sk frame message randomness ⟨.empty, events⟩ =
      (signRounds O v.challengeBytes t.key t.mu t.rhoPrime 65536 0 ⟨.empty, events⟩).map
        fun x => (x.1.encode, x.2) := by
  intro t
  have hmu : O.shake256.squeeze [(SecretParts.decode sk).tr.bytes, frame, message].flatten 64 = t.mu := by
    simp [t, ofSecretKey]
  have hrho : O.shake256.squeeze [(SecretParts.decode sk).key.bytes, randomness, t.mu.bytes].flatten 64 =
      t.rhoPrime := by
    simp [t, ofSecretKey]
  have hkey : SigningKey.ofParts O (SecretParts.decode sk) = some t.key := by
    rw [SigningKey.ofParts, hA]
    rfl
  unfold signFramed
  rw [Protocol.bind_of_apply (Protocol.hash_apply ..), hmu,
    Protocol.bind_of_apply (Protocol.hash_apply ..), hrho, hkey,
    Protocol.bind_of_apply (Protocol.ofOption_some ..), Protocol.bind_apply]
  cases signRounds O v.challengeBytes t.key t.mu t.rhoPrime 65536 0 ⟨.empty, events⟩ <;> rfl

/-- **Where a signature comes from.** -/
theorem exists_answer_of_signFramed {signature : Signature v} {s : Session} {events : List Event}
    (h : signFramed O v sk frame message randomness ⟨.empty, events⟩ = some (signature, s)) :
    ∃ A m p, Matrix.expand O (SecretParts.decode sk).rho.bytes = some A ∧
      (ofSecretKey O sk frame message randomness A).answer O v.challengeBytes m = some p ∧
      signature = p.encode := by
  cases hA : Matrix.expand O (SecretParts.decode sk).rho.bytes with
  | none =>
    unfold signFramed at h
    rw [Protocol.bind_of_apply (Protocol.hash_apply ..),
      Protocol.bind_of_apply (Protocol.hash_apply ..), SigningKey.ofParts, hA] at h
    exact absurd h (by simp [Protocol.bind_apply])
  | some A =>
    rw [signFramed_apply frame message randomness hA, Option.map_eq_some_iff] at h
    obtain ⟨⟨p, s'⟩, hrun, heq⟩ := h
    obtain ⟨m, hm⟩ := exists_answer_of_signRounds (inRange_ofSecretKey hA) hrun
    exact ⟨A, m, p, rfl, hm, (Prod.mk.inj heq).1.symm⟩

end SecretKey

/-! ## Rounds over streams of one byte -/

/-- Masks and products with short secrets are small enough for their sum to be nearest to zero. -/
theorem valMinAbs_response {c : Poly .plain} (hc : t.challenge O length n = some c)
    (h1 : t.s1.Within (-5) 2) (i : Fin 7) (j : Fin 256) :
    (((t.round O n c).response i).coeff j).valMinAbs =
      (((t.mask O n).get i).number j).toInt + c.negacyclic (t.s1.get i) j := by
  have hproduct := abs_le.1 (Poly.abs_negacyclic_challenge_le (B := 5) hc
    (h1.abs_number_le le_rfl (by norm_num) i) j)
  have hmask := (within_mask (O := O) (t := t) (n := n)) i j
  have hcoeff : ((t.round O n c).response i).coeff j =
      (((((t.mask O n).get i).number j).toInt + c.negacyclic (t.s1.get i) j : ℤ) : Zq) := by
    rw [Int.cast_add, Poly.cast_negacyclic]
    rfl
  rw [hcoeff]
  exact Poly.valMinAbs_intCast (abs_le.2 ⟨by linarith, by linarith⟩)

section Repeating

variable {zero : Bytes → Bool}

theorem toInt_mask_repeating (i : Fin 7) (j : Fin 256) :
    (((t.mask (.repeating zero) n).get i).number j).toInt =
      if zero (t.rhoPrime.bytes ++ Bytes.ofUInt16 (maskNonce n i)) then 524288 else 174763 := by
  have hmask : (t.mask (.repeating zero) n).get i = _ :=
    (Vector.getElem_ofFn _).trans (Poly.uniformGamma1_repeating ..)
  rw [hmask, Poly.number_flat]
  split <;> rfl

theorem coeff_product_repeating (hA : t.matrix = .flat 0x323232)
    (hzero : ∀ i : Fin 7, zero (t.rhoPrime.bytes ++ Bytes.ofUInt16 (maskNonce n i)) = false)
    (i : Fin 8) (j : Fin 256) :
    (t.matrix.product (t.mask (.repeating zero) n).element i).coeff j = (3673080 : ℤ) := by
  have hmask : ∀ k, ((t.mask (.repeating zero) n).element k).coeff j = (174763 : ℤ) := by
    intro k
    rw [PolyVec.element, Poly.coeff_element, Residue.cls, toInt_mask_repeating, hzero,
      if_neg Bool.false_ne_true]
  rw [hA, Matrix.product_flat, Rq.coeff_intCast_mul, Fin.sum_univ_seven]
  simp only [Rq.coeff_add, hmask]
  decide

theorem normBelow_lowBits_repeating (hA : t.matrix = .flat 0x323232)
    (hzero : ∀ i : Fin 7, zero (t.rhoPrime.bytes ++ Bytes.ofUInt16 (maskNonce n i)) = false)
    (i : Fin 8) : (t.matrix.product (t.mask (.repeating zero) n).element i).lowBits.NormBelow 6649 := by
  intro j
  change |((Rounding.lowBits ((Rq.coeff _ j).val : ℤ) : ℤ) : Zq).valMinAbs| < 6649
  -- the coefficient lies in bucket 7, close to its centre
  rw [coeff_product_repeating hA hzero, Poly.val_intCast_of_range (by norm_num) (by norm_num),
    show Rounding.lowBits 3673080 = 6648 by decide, Poly.valMinAbs_intCast (by norm_num)]
  norm_num

/-- **A round over streams of one byte is turned down exactly if one of its masks is made of zeros**,
which are the largest numbers that a mask can have. -/
theorem acceptable_repeating_iff (hA : t.matrix = .flat 0x323232) (h1 : t.s1.Within (-2) 2)
    (h2 : t.s2.Within (-2) 2) (h0 : t.t0.Within (-4095) 4096) :
    t.Acceptable (.repeating zero) length n ↔
      ∀ i : Fin 7, zero (t.rhoPrime.bytes ++ Bytes.ofUInt16 (maskNonce n i)) = false := by
  have hresponse {c : Poly .plain} (hc : t.challenge (.repeating zero) length n = some c) :=
    valMinAbs_response hc (h1.mono (by norm_num) le_rfl)
  have hproduct {c : Poly .plain} (hc : t.challenge (.repeating zero) length n = some c) (i j) :=
    abs_le.1 (Poly.abs_negacyclic_challenge_le hc (h1.abs_number_le le_rfl le_rfl i) j)
  constructor
  · rintro ⟨c, hc, hacc⟩ i
    by_contra hzero
    have hlt := abs_lt.1 (hacc.response_lt i 0)
    rw [hresponse hc, toInt_mask_repeating, if_pos (Bool.eq_true_of_not_eq_false hzero)] at hlt
    exact absurd hlt.2 (by linarith [(hproduct hc i 0).1])
  · intro hzero
    obtain ⟨c, hc⟩ := Option.isSome_iff_exists.1
      (Poly.isSome_challenge_repeating zero (t.challengeHash (.repeating zero) length n).bytes)
    refine ⟨c, hc, Round.acceptable_of_room (L := 6649 + (60 * 2 + 1)) (M := 60 * 4096 + 1)
      (fun i j => ?_) (fun i => (normBelow_lowBits_repeating hA hzero i).sub ?_) (fun i => ?_)
      (by norm_num) (by norm_num) (by norm_num)⟩
    · rw [hresponse hc, toInt_mask_repeating, hzero, if_neg Bool.false_ne_true, abs_lt]
      have hle := hproduct hc i j
      exact ⟨by linarith, by linarith⟩
    · exact Poly.normBelow_challenge_mul hc (h2.abs_number_le le_rfl le_rfl i) (by norm_num)
    · exact normBelow_element_missing hc h0 i

/-- The mask of a nonce is made of zeros if its low byte is one of the first seven. -/
theorem acceptable_reluctant_iff (hA : t.matrix = .flat 0x323232) (h1 : t.s1.Within (-2) 2)
    (h2 : t.s2.Within (-2) 2) (h0 : t.t0.Within (-4095) 4096) :
    t.Acceptable .reluctant length n ↔ ∀ i : Fin 7, 7 ≤ (7 * n + i.val) % 256 := by
  refine (acceptable_repeating_iff hA h1 h2 h0).trans (forall_congr' fun i => ?_)
  have hbyte : (t.rhoPrime.bytes ++ Bytes.ofUInt16 (maskNonce n i)).getD 64 0 =
      (maskNonce n i).toUInt8 := by
    rw [List.getD_append_right _ _ _ _ (by simp), ByteString.length_bytes]
    rfl
  rw [hbyte, decide_eq_false_iff_not, UInt8.lt_iff_toNat_lt, UInt16.toNat_toUInt8, maskNonce,
    UInt16.toNat_ofNat', not_lt, Nat.mod_mod_of_dvd _ (by norm_num)]
  rfl

end Repeating

end SigningTask

theorem SigningKey.exists_task {O : Oracle} {v : Variant} {sk : SecretKey v} {k : SigningKey}
    (hk : ofParts O (SecretParts.decode sk) = some k) (mu rhoPrime : ByteString 64) :
    ∃ t : SigningTask, t.InRange ∧ t.key = k ∧ t.mu = mu ∧ t.rhoPrime = rhoPrime ∧
      Matrix.expand O (SecretParts.decode sk).rho.bytes = some t.matrix ∧
      t.s1 = (SecretParts.decode sk).s1 ∧ t.s2 = (SecretParts.decode sk).s2 ∧
      t.t0 = (SecretParts.decode sk).t0 := by
  obtain ⟨A, hA, rfl⟩ := Option.map_eq_some_iff.1 hk
  exact ⟨⟨A, (SecretParts.decode sk).s1, (SecretParts.decode sk).s2, (SecretParts.decode sk).t0, mu,
    rhoPrime⟩, ⟨Matrix.within_expand hA, SecretParts.within_s1_decode sk, SecretParts.within_s2_decode sk,
    SecretParts.within_t0_decode sk⟩, rfl, rfl, rfl, hA, rfl, rfl, rfl⟩

theorem Standard.sign_apply {O : Oracle} {sk : SecretKey .standard} {message context : Bytes}
    {randomness : ByteString 32} (hctx : context.length ≤ 255) (s : Session) :
    Standard.sign O sk message context randomness s =
      (signFramed O .standard sk (Standard.frame context) message randomness.bytes s).map
        fun x => (.ok x.1, x.2) := by
  have hle : ¬Params.maxContextBytes < context.length := not_lt.2 hctx
  rw [Standard.sign, if_neg hle, Protocol.bind_apply]
  cases signFramed O .standard sk (Standard.frame context) message randomness.bytes s <;> rfl

theorem Standard.fresh_sign {O : Oracle} {sk : SecretKey .standard} {context : Bytes} {A : Matrix}
    (message : Bytes) (randomness : ByteString 32) (hctx : context.length ≤ 255)
    (hA : Matrix.expand O (SecretParts.decode sk).rho.bytes = some A) :
    let t := SigningTask.ofSecretKey O sk (Standard.frame context) message randomness.bytes A
    (Standard.sign O sk message context randomness).fresh =
      (signRounds O 64 t.key t.mu t.rhoPrime 65536 0 ⟨.empty, []⟩).map
        fun x => (.ok x.1.encode, x.2.events) := by
  intro t
  have hframed := SigningTask.signFramed_apply (v := .standard) (Standard.frame context) message
    randomness.bytes hA []
  rw [Protocol.fresh, Protocol.start, Standard.sign_apply hctx, hframed, Option.map_map,
    Option.map_map]
  rfl

/-- **The signing loop returns exactly the first acceptable round.** For every secret key of the right
length, rounds repeat after `2 ^ 16`, so that the loop ends, with enough fuel, if and only if one of
the first `2 ^ 16` rounds is acceptable; the signature then encodes the challenge hash, the response
and the hint of the first one, and the event counts the rounds. Before the nonces wrap around no two
rounds share one. -/
theorem sign_first_acceptable (O : Oracle) (sk : SecretKey .standard) (message context : Bytes)
    (randomness : ByteString 32) (A : Matrix) (hctx : context.length ≤ 255)
    (hA : Matrix.expand O (SecretParts.decode sk).rho.bytes = some A)
    (hstop : ∀ n < 65536, ((SigningTask.ofSecretKey O sk
      (0 :: context.length.toUInt8 :: context) message randomness.bytes A).challenge O 64 n).isSome) :
    let t := SigningTask.ofSecretKey O sk (0 :: context.length.toUInt8 :: context) message
      randomness.bytes A
    (∀ n, PolyVec.uniformGamma1 O t.rhoPrime.bytes n.toUInt16 = t.mask O n ∧
      t.mask O (n + 65536) = t.mask O n ∧
      t.answer O 64 (n + 65536) = t.answer O 64 n ∧
      signRound O 64 t.key t.mu t.rhoPrime (n + 65536).toUInt16 =
        signRound O 64 t.key t.mu t.rhoPrime n.toUInt16) ∧
    ((∃ fuel, (signRounds O 64 t.key t.mu t.rhoPrime fuel 0 ⟨.empty, []⟩).isSome) ↔
      ∃ n < 65536, t.Acceptable O 64 n) ∧
    ((Standard.sign O sk message context randomness).fresh.isSome ↔
      ∃ n < 65536, t.Acceptable O 64 n) ∧
    (∀ n c, t.challenge O 64 n = some c → (t.round O n c).Acceptable →
      (∀ m < n, ¬t.Acceptable O 64 m) →
      (Standard.sign O sk message context randomness).fresh =
        some (.ok (SignatureParts.encode ⟨t.challengeHash O 64 n, (t.round O n c).centredResponse,
          (t.round O n c).hint⟩), [.signatureAccepted (n + 1)])) ∧
    ∀ m < 9362, ∀ n < 9362, m ≠ n → Disjoint (roundNonces m) (roundNonces n) := by
  intro t
  have ht : t.InRange := SigningTask.inRange_ofSecretKey hA
  have hall := SigningTask.isSome_challenge hstop
  have hloop := SigningTask.signRounds_isSome_iff ht hall
  have hsign : _ = (signRounds O 64 t.key t.mu t.rhoPrime 65536 0 ⟨.empty, []⟩).map _ :=
    Standard.fresh_sign message randomness hctx hA
  refine ⟨fun n => ⟨SigningTask.uniformGamma1_eq_mask, SigningTask.mask_add_period,
    SigningTask.answer_add_period, ?_⟩, ?_, ?_, ?_,
    fun m hm n hn hne => disjoint_roundNonces hm hn hne⟩
  · have hword : (n + 65536).toUInt16 = n.toUInt16 := by
      apply UInt16.toNat_inj.1
      simp
    rw [hword]
  · constructor
    · rintro ⟨fuel, hfuel⟩
      obtain ⟨n, -, hn, hacc⟩ := (hloop fuel []).1 hfuel
      exact ⟨n, hn, hacc⟩
    · rintro ⟨n, hn, hacc⟩
      exact ⟨65536, (hloop 65536 []).2 ⟨n, hn, hn, hacc⟩⟩
  · rw [hsign, Option.isSome_map, hloop 65536 []]
    exact ⟨fun ⟨n, hn, _, hacc⟩ => ⟨n, hn, hacc⟩, fun ⟨n, hn, hacc⟩ => ⟨n, hn, hn, hacc⟩⟩
  · intro n c hc hacc hmin
    have hn : n < 65536 := by
      by_contra hbig
      refine hmin (n % 65536) (by omega) ?_
      rw [SigningTask.acceptable_iff_isSome, SigningTask.answer_mod_period,
        ← SigningTask.acceptable_iff_isSome]
      exact ⟨c, hc, hacc⟩
    have hrun := SigningTask.signRounds_of_first ht hall
      (SigningTask.answer_eq_some_iff.2 ⟨c, hc, hacc, rfl⟩)
      (fun k _ hk => SigningTask.answer_eq_none_iff.2 (hmin k hk)) (Nat.zero_le n)
      (by omega : n < 0 + 65536) []
    rw [hsign, hrun]
    rfl

/-- A secret key whose first round is turned down and whose second one is accepted. -/
theorem sign_accepted_in_second_round :
    let parts : SecretParts 64 := ⟨.zero 32, .zero 32, .zero 64, .flat 2, .flat (-1), .flat 4096⟩
    let t := SigningTask.ofSecretKey .reluctant (v := .standard) parts.encode [0, 1, 7] [1, 2, 3]
      (ByteString.zero 32).bytes (.flat 0x323232)
    ¬t.Acceptable .reluctant 64 0 ∧ ∃ c,
      (Standard.sign .reluctant parts.encode [1, 2, 3] [7] (.zero 32)).fresh =
        some (.ok (SignatureParts.encode ⟨t.challengeHash .reluctant 64 1,
          (t.round .reluctant 1 c).centredResponse, (t.round .reluctant 1 c).hint⟩),
          [.signatureAccepted 2]) := by
  intro parts t
  have h1 : parts.s1.Within (-5) 2 := PolyVec.within_flat (by decide) (by decide)
  have h2 : parts.s2.Within (-5) 2 := PolyVec.within_flat (by decide) (by decide)
  have h0 : parts.t0.Within (-4095) 4096 := PolyVec.within_flat (by decide) (by decide)
  have hparts : SecretParts.decode parts.encode = parts := SecretParts.decode_encode h1 h2 h0
  have hacceptable (n : ℕ) : t.Acceptable .reluctant 64 n ↔ ∀ i : Fin 7, 7 ≤ (7 * n + i.val) % 256 := by
    refine SigningTask.acceptable_reluctant_iff rfl ?_ ?_ ?_
    · change (SecretParts.decode parts.encode).s1.Within (-2) 2
      rw [hparts]
      exact PolyVec.within_flat (by decide) (by decide)
    · change (SecretParts.decode parts.encode).s2.Within (-2) 2
      rw [hparts]
      exact PolyVec.within_flat (by decide) (by decide)
    · change (SecretParts.decode parts.encode).t0.Within (-4095) 4096
      rw [hparts]
      exact h0
  have hfirst : ¬t.Acceptable .reluctant 64 0 := by
    rw [hacceptable]
    decide
  obtain ⟨c, hc, hround⟩ := (hacceptable 1).2 (by decide)
  obtain ⟨-, -, -, hsign, -⟩ := sign_first_acceptable .reluctant parts.encode [1, 2, 3] [7] (.zero 32)
    (.flat 0x323232) (by decide) (Matrix.expand_repeating ..) fun n _ => Poly.isSome_challenge_repeating ..
  refine ⟨hfirst, c, hsign 1 c hc hround fun m hm => ?_⟩
  obtain rfl : m = 0 := Nat.lt_one_iff.1 hm
  exact hfirst

end LatticeSignature
