import LatticeSignature.Proofs.Commitment
import LatticeSignature.Proofs.Layout
import LatticeSignature.Proofs.Protocol
import LatticeSignature.Proofs.Sampler

/-!
# Consistent key pairs

* **`toInt_publicVector`**: the two parts of the public vector make up the canonical representatives
  of `A s1 + s2`.
* `KeyPair.Consistent`: what the two keys of a pair say about each other.
* `KeyPair.exists_of_generate`: where the keys of a seed come from.
* **`KeyPair.generate_consistent`**: key generation returns a consistent pair.
-/

namespace LatticeSignature

/-! ## The public vector -/

/-- **The parts of the public vector** make up `A s1 + s2`. The inverse transform stays far enough
within `(-q, q)` for the lift to be canonical without a reduction after the sum. -/
theorem toInt_publicVector {A : Matrix} {s1 : PolyVec .plain 7} {s2 : PolyVec .plain 8}
    (hA : A.Within 0 8380416) (h1 : s1.Within (-2) 2) (h2 : s2.Within (-2) 2) (i : Fin 8)
    (j : Fin 256) :
    ((publicVector A s1 s2).high.number i j).toInt * 8192 + ((publicVector A s1 s2).low.number i j).toInt =
        ((A.product s1.element i + s2.element i).coeff j).val ∧
      (0 ≤ ((publicVector A s1 s2).high.number i j).toInt ∧
        ((publicVector A s1 s2).high.number i j).toInt ≤ 1023) ∧
      -4095 ≤ ((publicVector A s1 s2).low.number i j).toInt ∧
        ((publicVector A s1 s2).low.number i j).toInt ≤ 4096 := by
  have hmul := Matrix.element_mul_transform hA h1 (by norm_num) i
  have hadd := Poly.element_add hmul.2 (h2 i) (by norm_num) (by norm_num)
  have hlift := Poly.element_lift hadd.2 (by norm_num) (by norm_num)
  have hsplit := Rounding.toInt_power2Round (hlift.2 j).1 (hlift.2 j).2
  rw [Poly.toInt_of_within hlift.2, hlift.1, hadd.1, hmul.1] at hsplit
  unfold publicVector
  rw [PolyVec.number, PolyVec.number, PolyVec.get_power2Round_high, PolyVec.get_power2Round_low,
    PolyVec.get_lift, PolyVec.get_add, Poly.power2Round, Poly.number_map, Poly.number_map]
  exact hsplit

theorem within_publicVector_high {A : Matrix} {s1 : PolyVec .plain 7} {s2 : PolyVec .plain 8}
    (hA : A.Within 0 8380416) (h1 : s1.Within (-2) 2) (h2 : s2.Within (-2) 2) :
    (publicVector A s1 s2).high.Within 0 1023 :=
  fun i j => (toInt_publicVector hA h1 h2 i j).2.1

theorem within_publicVector_low {A : Matrix} {s1 : PolyVec .plain 7} {s2 : PolyVec .plain 8}
    (hA : A.Within 0 8380416) (h1 : s1.Within (-2) 2) (h2 : s2.Within (-2) 2) :
    (publicVector A s1 s2).low.Within (-4095) 4096 :=
  fun i j => (toInt_publicVector hA h1 h2 i j).2.2

theorem element_publicVector {A : Matrix} {s1 : PolyVec .plain 7} {s2 : PolyVec .plain 8}
    (hA : A.Within 0 8380416) (h1 : s1.Within (-2) 2) (h2 : s2.Within (-2) 2) (i : Fin 8) :
    8192 * (publicVector A s1 s2).high.element i + (publicVector A s1 s2).low.element i =
      A.product s1.element i + s2.element i := by
  refine Rq.ext (funext fun j => ?_)
  have h := congrArg (Int.cast : ℤ → Zq) (toInt_publicVector hA h1 h2 i j).1
  rw [Int.cast_add, Int.cast_mul, Int.cast_natCast, ZMod.natCast_zmod_val, mul_comm] at h
  rw [Rq.coeff_add, Rq.coeff_ofNat_mul]
  exact h

namespace KeyPair

variable {O : Oracle} {v : Variant}

/-! ## Where keys come from -/

/-- What a seed is hashed to. -/
def material (O : Oracle) (v : Variant) (seed : ByteString 32) : ByteString 128 :=
  O.shake256.squeeze (seed.bytes ++ v.seedSuffix) 128

theorem matrixSeed_le : 0 + 32 ≤ 128 := by norm_num

theorem shortSeed_le : 32 + 64 ≤ 128 := by norm_num

theorem maskSeed_le : 96 + 32 ≤ 128 := by norm_num

theorem squeeze_eq_material (O : Oracle) (v : Variant) (seed : ByteString 32) :
    O.shake256.squeeze [seed.bytes, v.seedSuffix].flatten 128 = material O v seed := by
  simp [material]

/-- The seed of the matrix. -/
def matrixSeed (O : Oracle) (v : Variant) (seed : ByteString 32) : ByteString 32 :=
  (material O v seed).slice 0 32 matrixSeed_le

/-- The seed of the short vectors. -/
def shortSeed (O : Oracle) (v : Variant) (seed : ByteString 32) : ByteString 64 :=
  (material O v seed).slice 32 64 shortSeed_le

/-- The seed of the masks. -/
def maskSeed (O : Oracle) (v : Variant) (seed : ByteString 32) : ByteString 32 :=
  (material O v seed).slice 96 32 maskSeed_le

/-- The samplers find the matrix and both short vectors of a seed. -/
def SamplersStop (O : Oracle) (v : Variant) (seed : ByteString 32) : Prop :=
  (Matrix.expand O (matrixSeed O v seed).bytes).isSome ∧
    (PolyVec.uniformEta O 7 (shortSeed O v seed).bytes 0).isSome ∧
    (PolyVec.uniformEta O 8 (shortSeed O v seed).bytes 7).isSome

/-- The public key of a matrix seed and a public vector. -/
def publicKeyOf (rho : ByteString 32) (t : PolyVec.Parts 8) : PublicKey :=
  PublicParts.encode ⟨rho, t.high⟩

/-- The keys of a matrix and short vectors. -/
def keysOf (O : Oracle) (v : Variant) (rho key : ByteString 32) (A : Matrix) (s1 : PolyVec .plain 7)
    (s2 : PolyVec .plain 8) : KeyPair v :=
  let t := publicVector A s1 s2
  ⟨SecretParts.encode ⟨rho, key, O.shake256.squeeze (publicKeyOf rho t).bytes v.trBytes, s1, s2, t.low⟩,
    publicKeyOf rho t⟩

theorem generate_apply (seed : ByteString 32) {A : Matrix} {s1 : PolyVec .plain 7}
    {s2 : PolyVec .plain 8} (hA : Matrix.expand O (matrixSeed O v seed).bytes = some A)
    (h1 : PolyVec.uniformEta O 7 (shortSeed O v seed).bytes 0 = some s1)
    (h2 : PolyVec.uniformEta O 8 (shortSeed O v seed).bytes 7 = some s2) (events : List Event) :
    generate O v seed ⟨.empty, events⟩ =
      some (keysOf O v (matrixSeed O v seed) (maskSeed O v seed) A s1 s2,
        ⟨.empty, events ++ [.generatedKeyPair]⟩) := by
  unfold generate
  rw [Protocol.bind_of_apply (Protocol.hash_apply ..), squeeze_eq_material]
  change (Protocol.ofOption (Matrix.expand O (matrixSeed O v seed).bytes) >>= fun A =>
    Protocol.ofOption (PolyVec.uniformEta O 7 (shortSeed O v seed).bytes 0) >>= fun s1 =>
    Protocol.ofOption (PolyVec.uniformEta O 8 (shortSeed O v seed).bytes 7) >>= fun s2 => _) _ = _
  rw [hA, h1, h2, Protocol.bind_of_apply (Protocol.ofOption_some ..),
    Protocol.bind_of_apply (Protocol.ofOption_some ..),
    Protocol.bind_of_apply (Protocol.ofOption_some ..)]
  rw [Protocol.bind_of_apply (Protocol.hash_apply ..),
    Protocol.bind_of_apply (Protocol.report_apply ..), Protocol.pure_apply, List.flatten_cons,
    List.flatten_nil, List.append_nil]
  rfl

theorem samplersStop_of_generate {seed : ByteString 32} {r : KeyPair v × Session} {events : List Event}
    (h : generate O v seed ⟨.empty, events⟩ = some r) : SamplersStop O v seed := by
  unfold generate at h
  rw [Protocol.bind_of_apply (Protocol.hash_apply ..), squeeze_eq_material] at h
  obtain ⟨A, _, hA, h⟩ := Protocol.bind_eq_some_iff.1 h
  obtain ⟨s1, _, h1, h⟩ := Protocol.bind_eq_some_iff.1 h
  obtain ⟨s2, _, h2, h⟩ := Protocol.bind_eq_some_iff.1 h
  exact ⟨Option.isSome_iff_exists.2 ⟨A, (Protocol.ofOption_eq_some_iff.1 hA).1⟩,
    Option.isSome_iff_exists.2 ⟨s1, (Protocol.ofOption_eq_some_iff.1 h1).1⟩,
    Option.isSome_iff_exists.2 ⟨s2, (Protocol.ofOption_eq_some_iff.1 h2).1⟩⟩

/-- **Where the keys of a seed come from.** -/
theorem exists_of_generate {seed : ByteString 32} {keys : KeyPair v} {events : List Event}
    (h : (generate O v seed).fresh = some (keys, events)) :
    ∃ A s1 s2, Matrix.expand O (matrixSeed O v seed).bytes = some A ∧
      PolyVec.uniformEta O 7 (shortSeed O v seed).bytes 0 = some s1 ∧
      PolyVec.uniformEta O 8 (shortSeed O v seed).bytes 7 = some s2 ∧
      keys = keysOf O v (matrixSeed O v seed) (maskSeed O v seed) A s1 s2 := by
  obtain ⟨hasher, hrun⟩ := Protocol.fresh_eq_some_iff.1 h
  obtain ⟨hA, h1, h2⟩ := samplersStop_of_generate hrun
  obtain ⟨A, hA⟩ := Option.isSome_iff_exists.1 hA
  obtain ⟨s1, h1⟩ := Option.isSome_iff_exists.1 h1
  obtain ⟨s2, h2⟩ := Option.isSome_iff_exists.1 h2
  have heq := Option.some_inj.1 (hrun.symm.trans (generate_apply seed hA h1 h2 []))
  exact ⟨A, s1, s2, hA, h1, h2, (Prod.mk.inj heq).1⟩

/-! ## What the keys hold -/

section Holds

variable {rho key : ByteString 32} {A : Matrix} {s1 : PolyVec .plain 7} {s2 : PolyVec .plain 8}

variable (O v rho key) in
theorem decode_publicKey (hA : A.Within 0 8380416) (h1 : s1.Within (-2) 2) (h2 : s2.Within (-2) 2) :
    PublicParts.decode (keysOf O v rho key A s1 s2).publicKey =
      ⟨rho, (publicVector A s1 s2).high⟩ :=
  PublicParts.decode_encode (p := ⟨rho, (publicVector A s1 s2).high⟩)
    (within_publicVector_high hA h1 h2)

variable (O v rho key) in
theorem decode_secretKey (hA : A.Within 0 8380416) (h1 : s1.Within (-2) 2) (h2 : s2.Within (-2) 2) :
    SecretParts.decode (keysOf O v rho key A s1 s2).secretKey =
      ⟨rho, key, O.shake256.squeeze (keysOf O v rho key A s1 s2).publicKey.bytes v.trBytes, s1, s2,
        (publicVector A s1 s2).low⟩ :=
  SecretParts.decode_encode (p := ⟨rho, key, _, s1, s2, (publicVector A s1 s2).low⟩)
    (h1.mono (by norm_num) le_rfl) (h2.mono (by norm_num) le_rfl) (within_publicVector_low hA h1 h2)

end Holds

/-- **What the two keys of a pair say about each other.** -/
structure Consistent (O : Oracle) (keys : KeyPair v) : Prop where
  rho_eq : (SecretParts.decode keys.secretKey).rho = (PublicParts.decode keys.publicKey).rho
  tr_eq : (SecretParts.decode keys.secretKey).tr = O.shake256.squeeze keys.publicKey.bytes v.trBytes
  s1_within : (SecretParts.decode keys.secretKey).s1.Within (-2) 2
  s2_within : (SecretParts.decode keys.secretKey).s2.Within (-2) 2
  t1_within : (PublicParts.decode keys.publicKey).t1.Within 0 1023
  t0_within : (SecretParts.decode keys.secretKey).t0.Within (-4095) 4096
  vector_eq : ∃ A, Matrix.expand O (PublicParts.decode keys.publicKey).rho.bytes = some A ∧
    ∀ (i : Fin 8) (j : Fin 256),
      ((PublicParts.decode keys.publicKey).t1.number i j).toInt * 2 ^ 13 +
          ((SecretParts.decode keys.secretKey).t0.number i j).toInt =
        ((A.product (SecretParts.decode keys.secretKey).s1.element i +
          (SecretParts.decode keys.secretKey).s2.element i).coeff j).val

theorem consistent_keysOf {rho key : ByteString 32} {A : Matrix} {s1 : PolyVec .plain 7}
    {s2 : PolyVec .plain 8} (hA : Matrix.expand O rho.bytes = some A) (h1 : s1.Within (-2) 2)
    (h2 : s2.Within (-2) 2) : Consistent O (keysOf O v rho key A s1 s2) := by
  have hpk := decode_publicKey O v rho key (Matrix.within_expand hA) h1 h2
  have hsk := decode_secretKey O v rho key (Matrix.within_expand hA) h1 h2
  refine ⟨?_, ?_, ?_, ?_, ?_, ?_, A, ?_, ?_⟩ <;> simp only [hpk, hsk]
  · exact h1
  · exact h2
  · exact within_publicVector_high (Matrix.within_expand hA) h1 h2
  · exact within_publicVector_low (Matrix.within_expand hA) h1 h2
  · exact hA
  · exact fun i j => (toInt_publicVector (Matrix.within_expand hA) h1 h2 i j).1

/-- **Key generation returns a consistent pair**, in both variants. -/
theorem generate_consistent (O : Oracle) (seed : ByteString 32) :
    (SamplersStop O .standard seed →
      ∃ keys events, (generate O .standard seed).fresh = some (keys, events) ∧ Consistent O keys) ∧
    (SamplersStop O .legacy seed →
      ∃ keys events, (generate O .legacy seed).fresh = some (keys, events) ∧ Consistent O keys) := by
  have hall : ∀ v : Variant, SamplersStop O v seed →
      ∃ keys events, (generate O v seed).fresh = some (keys, events) ∧ Consistent O keys := by
    rintro v ⟨hA, h1, h2⟩
    obtain ⟨A, hA⟩ := Option.isSome_iff_exists.1 hA
    obtain ⟨s1, h1⟩ := Option.isSome_iff_exists.1 h1
    obtain ⟨s2, h2⟩ := Option.isSome_iff_exists.1 h2
    exact ⟨_, _, Protocol.fresh_of_apply (generate_apply seed hA h1 h2 []),
      consistent_keysOf hA (PolyVec.within_uniformEta h1) (PolyVec.within_uniformEta h2)⟩
  exact ⟨hall _, hall _⟩

theorem samplersStop_repeating (zero : Bytes → Bool) (v : Variant) (seed : ByteString 32) :
    SamplersStop (.repeating zero) v seed := by
  refine ⟨?_, ?_, ?_⟩
  · rw [Matrix.expand_repeating]
    rfl
  · rw [PolyVec.uniformEta_repeating]
    rfl
  · rw [PolyVec.uniformEta_repeating]
    rfl

theorem generate_consistent_constant :
    (∃ keys events, (generate .constant .standard (.zero 32)).fresh = some (keys, events) ∧
      Consistent .constant keys) ∧
    ∃ keys events, (generate .constant .legacy (.zero 32)).fresh = some (keys, events) ∧
      Consistent .constant keys :=
  ⟨(generate_consistent .constant (.zero 32)).1 (samplersStop_repeating _ _ _),
    (generate_consistent .constant (.zero 32)).2 (samplersStop_repeating _ _ _)⟩

end KeyPair

end LatticeSignature
