import LatticeSignature.Layout
import LatticeSignature.Proofs.Hint
import LatticeSignature.Proofs.Packed
import Mathlib.Order.Interval.Finset.Fin

/-!
# Round trips of keys and signatures

* **`PublicParts.decode_encode`**, **`SecretParts.decode_encode`**: the parts of a key, if they are in
  the ranges of their packed forms.
* **`PublicParts.encode_decode`**, **`SecretParts.encode_decode`**: any bytes of the length of a key.
* **`keys_codec_bijective`**: parts in range and byte strings of the length of a key are the same
  thing.
* **`SignatureParts.decode?_encode`**: the parts of a signature, with a response in range and a hint
  of at most 75 ones.
* `SignatureParts.decode?_eq_some_iff`: what a byte string must be to hold a signature.
* **`SignatureParts.codec_bijective`**: parts in range and accepted byte strings are the same
  thing.
* `PublicParts.within_t1_decode`, …: the ranges of what any key holds.
-/

namespace LatticeSignature

namespace ByteString

variable {n : ℕ}

theorem ofBytes?_eq_some_iff {b : Bytes} {s : ByteString n} :
    ofBytes? n b = some s ↔ b = s.bytes := by
  unfold ofBytes?
  constructor
  · intro h
    split at h
    · exact congrArg bytes (Option.some_inj.1 h)
    · exact absurd h (by simp)
  · rintro rfl
    rw [dif_pos s.length_eq]

@[simp]
theorem ofBytes?_bytes (s : ByteString n) : ofBytes? n s.bytes = some s :=
  ofBytes?_eq_some_iff.2 rfl

theorem ofBytes?_eq_none_iff {b : Bytes} : ofBytes? n b = none ↔ b.length ≠ n := by
  rw [ofBytes?, dite_eq_right_iff]
  simp

theorem slice_of_append {m len : ℕ} {s : ByteString m} {part : ByteString len} (earlier later : Bytes)
    (hs : s.bytes = earlier ++ part.bytes ++ later) {start : ℕ} (hstart : start = earlier.length)
    (h : start + len ≤ m) : s.slice start len h = part := by
  refine ByteString.ext ?_
  rw [bytes_slice, hs, hstart, List.append_assoc, List.drop_left, List.take_left' part.length_eq]

end ByteString

namespace PolyVec

theorem unpack_of_append {w n start : ℕ} {form : PackedForm w} {v : PolyVec .plain n}
    {b : Bytes} (earlier later : Bytes) (hb : b = earlier ++ (pack form v).bytes ++ later)
    (hstart : start = earlier.length)
    (h : ∀ i j, form.Fits (v.number i j)) :
    unpack form n start b = v := by
  rw [hb, hstart]
  exact unpack_pack form earlier later h

end PolyVec

/-! ## Public keys -/

namespace PublicParts

theorem within_t1_decode (b : ByteString 2592) : (decode b).t1.Within 0 1023 :=
  PolyVec.unpack_within Poly.unpack_t1_within _ _

theorem decode_encode {p : PublicParts} (h : p.t1.Within 0 1023) : decode p.encode = p := by
  have hb : p.encode.bytes = p.rho.bytes ++ (PolyVec.pack .t1 p.t1).bytes ++ [] :=
    (List.append_nil _).symm
  refine PublicParts.ext (ByteString.slice_of_append [] _ rfl rfl (by norm_num)) ?_
  exact PolyVec.unpack_of_append p.rho.bytes [] hb p.rho.length_eq.symm
    fun i j => PackedForm.fits_t1 (h i j).1 (h i j).2

theorem encode_decode (b : ByteString 2592) : (decode b).encode = b := by
  have ht1 : (PolyVec.pack .t1 (decode b).t1).bytes = (b.bytes.drop 32).take 2560 :=
    PolyVec.pack_unpack .t1 b.length_eq.ge (by norm_num)
  refine ByteString.ext ?_
  change b.bytes.take 32 ++ (PolyVec.pack .t1 (decode b).t1).bytes = b.bytes
  rw [ht1, ← List.take_add, List.take_of_length_le b.length_eq.le]

end PublicParts

/-! ## Secret keys -/

namespace SecretParts

variable {tr : ℕ}

theorem within_s1_decode (b : ByteString (4832 + tr)) : (decode b).s1.Within (-5) 2 :=
  PolyVec.unpack_within Poly.unpack_eta_within _ _

theorem within_s2_decode (b : ByteString (4832 + tr)) : (decode b).s2.Within (-5) 2 :=
  PolyVec.unpack_within Poly.unpack_eta_within _ _

theorem within_t0_decode (b : ByteString (4832 + tr)) : (decode b).t0.Within (-4095) 4096 :=
  PolyVec.unpack_within Poly.unpack_t0_within _ _

theorem decode_encode {p : SecretParts tr} (h1 : p.s1.Within (-5) 2) (h2 : p.s2.Within (-5) 2)
    (h0 : p.t0.Within (-4095) 4096) : decode p.encode = p := by
  have hbytes : p.encode.bytes = p.rho.bytes ++ (p.key.bytes ++ (p.tr.bytes ++
      ((PolyVec.pack .eta p.s1).bytes ++ ((PolyVec.pack .eta p.s2).bytes ++
        (PolyVec.pack .t0 p.t0).bytes)))) := by
    simp [encode]
  refine SecretParts.ext ?_ ?_ ?_ ?_ ?_ ?_
  · exact ByteString.slice_of_append [] _ hbytes rfl (by simp; omega)
  · exact ByteString.slice_of_append p.rho.bytes _ (by simp [hbytes]; rfl) (by simp) (by simp; omega)
  · exact ByteString.slice_of_append (p.rho.bytes ++ p.key.bytes) _ (by simp [hbytes]; rfl) (by simp)
      (by simp)
  · exact PolyVec.unpack_of_append (p.rho.bytes ++ p.key.bytes ++ p.tr.bytes) _
      (by simp [hbytes]; rfl) (by simp; omega)
      fun i j => PackedForm.fits_eta (h1 i j).1 (h1 i j).2
  · exact PolyVec.unpack_of_append
      (p.rho.bytes ++ p.key.bytes ++ p.tr.bytes ++ (PolyVec.pack .eta p.s1).bytes) _
      (by simp [hbytes]; rfl) (by simp; omega)
      fun i j => PackedForm.fits_eta (h2 i j).1 (h2 i j).2
  · exact PolyVec.unpack_of_append
      (p.rho.bytes ++ p.key.bytes ++ p.tr.bytes ++ (PolyVec.pack .eta p.s1).bytes ++
        (PolyVec.pack .eta p.s2).bytes) [] (by simp [hbytes]) (by simp; omega)
      fun i j => PackedForm.fits_t0 (h0 i j).1 (h0 i j).2

/-- **Any bytes of the length of a secret key are recovered**, codes outside of the range of short
secrets included. -/
theorem encode_decode (b : ByteString (4832 + tr)) : (decode b).encode = b := by
  have hlength := b.length_eq
  have hs1 : (PolyVec.pack .eta (decode b).s1).bytes = (b.bytes.drop (64 + tr)).take 672 :=
    PolyVec.pack_unpack .eta (by omega) (by norm_num)
  have hs2 : (PolyVec.pack .eta (decode b).s2).bytes = (b.bytes.drop (736 + tr)).take 768 :=
    PolyVec.pack_unpack .eta (by omega) (by norm_num)
  have ht0 : (PolyVec.pack .t0 (decode b).t0).bytes = (b.bytes.drop (1504 + tr)).take 3328 :=
    PolyVec.pack_unpack .t0 (by simp; omega) (by norm_num)
  -- each part starts where the one before it ends
  have h2 : 64 + tr + 672 = 736 + tr := by omega
  have h0 : 736 + tr + 768 = 1504 + tr := by omega
  refine ByteString.ext ?_
  change b.bytes.take 32 ++ (b.bytes.drop 32).take 32 ++ (b.bytes.drop 64).take tr ++
    (PolyVec.pack .eta (decode b).s1).bytes ++ (PolyVec.pack .eta (decode b).s2).bytes ++
      (PolyVec.pack .t0 (decode b).t0).bytes = b.bytes
  rw [hs1, hs2, ht0, ← List.take_add, ← List.take_add, ← List.take_add, h2, ← List.take_add, h0,
    ← List.take_add, List.take_of_length_le (by omega)]

/-- The parts that the format can hold. Short secrets may be as low as `-5`. -/
structure InRange (p : SecretParts tr) : Prop where
  s1_within : p.s1.Within (-5) 2
  s2_within : p.s2.Within (-5) 2
  t0_within : p.t0.Within (-4095) 4096

theorem inRange_decode (b : ByteString (4832 + tr)) : (decode b).InRange :=
  ⟨within_s1_decode b, within_s2_decode b, within_t0_decode b⟩

theorem decode?_bytes (b : ByteString (4832 + tr)) : decode? tr b.bytes = some (decode b) := by
  rw [decode?, List.take_of_length_le b.length_eq.le, ByteString.ofBytes?_bytes]
  rfl

end SecretParts

/-- **Parts in range and byte strings of the length of a key are the same thing**, for public keys
and for secret keys with a public key hash of any length: encoding and decoding are each other's
inverses, and no byte string is refused. -/
theorem keys_codec_bijective :
    (∀ p : PublicParts, p.t1.Within 0 1023 → PublicParts.decode p.encode = p) ∧
      (∀ b : ByteString 2592, (PublicParts.decode b).t1.Within 0 1023 ∧
        (PublicParts.decode b).encode = b) ∧
      ∀ tr : ℕ, (∀ p : SecretParts tr, p.InRange → SecretParts.decode? tr p.encode.bytes = some p) ∧
        ∀ b : Bytes, b.length = 4832 + tr →
          ∃ p, SecretParts.decode? tr b = some p ∧ p.InRange ∧ p.encode.bytes = b := by
  refine ⟨fun p hp => PublicParts.decode_encode hp, fun b => ?_, fun tr => ⟨fun p hp => ?_, fun b hb => ?_⟩⟩
  · exact ⟨PublicParts.within_t1_decode b, PublicParts.encode_decode b⟩
  · rw [SecretParts.decode?_bytes, SecretParts.decode_encode hp.s1_within hp.s2_within hp.t0_within]
  · let key : ByteString (4832 + tr) := ⟨b, hb⟩
    exact ⟨SecretParts.decode key, SecretParts.decode?_bytes key, SecretParts.inRange_decode key,
      congrArg ByteString.bytes (SecretParts.encode_decode key)⟩

/-- A public key with all its coefficients at the upper end of their range. -/
def PublicParts.highest : PublicParts := ⟨.zero 32, .flat 1023⟩

/-- A secret key with all its coefficients at the lower ends of their ranges. -/
def SecretParts.lowest (tr : ℕ) : SecretParts tr where
  rho := .zero 32
  key := .zero 32
  tr := .zero tr
  s1 := .flat (-5)
  s2 := .flat (-5)
  t0 := .flat (-4095)

theorem SecretParts.inRange_lowest (tr : ℕ) : (lowest tr).InRange :=
  ⟨PolyVec.within_flat (by decide) (by decide), PolyVec.within_flat (by decide) (by decide),
    PolyVec.within_flat (by decide) (by decide)⟩

theorem keys_codec_bijective_lowest :
    PublicParts.decode PublicParts.highest.encode = PublicParts.highest ∧
      SecretParts.decode? 64 (SecretParts.lowest 64).encode.bytes = some (SecretParts.lowest 64) ∧
      SecretParts.decode? 32 (SecretParts.lowest 32).encode.bytes = some (SecretParts.lowest 32) ∧
      ∃ p, SecretParts.decode? 64 (List.replicate 4896 255) = some p ∧ p.InRange ∧
        p.encode.bytes = List.replicate 4896 255 := by
  obtain ⟨hpublic, -, hsecret⟩ := keys_codec_bijective
  exact ⟨hpublic PublicParts.highest (PolyVec.within_flat (by decide) (by decide)),
    (hsecret 64).1 _ (SecretParts.inRange_lowest 64), (hsecret 32).1 _ (SecretParts.inRange_lowest 32),
    (hsecret 64).2 _ List.length_replicate⟩

/-! ## Signatures -/

namespace SignatureParts

variable {c : ℕ}

/-- **What holds a signature**: the right length and a canonical hint section. -/
theorem decode?_eq_some_iff {b : Bytes} {p : SignatureParts c} :
    decode? c b = some p ↔ b.length = 4563 + c ∧ Hint.Canonical ((b.drop (4480 + c)).take 83) ∧
      p.challenge.bytes = b.take c ∧ p.z = PolyVec.unpack .z 7 c b ∧
      p.hint = Hint.listed ((b.drop (4480 + c)).take 83) := by
  unfold decode?
  by_cases hlen : b.length = 4563 + c
  · obtain ⟨s, rfl⟩ : ∃ s : ByteString (4563 + c), b = s.bytes := ⟨⟨b, hlen⟩, rfl⟩
    rw [ByteString.ofBytes?_bytes]
    simp only [Option.map_eq_some_iff, Hint.decode?_eq_some_iff, ByteString.bytes_slice]
    constructor
    · rintro ⟨hint, ⟨hc, rfl⟩, rfl⟩
      exact ⟨hlen, hc, rfl, rfl, rfl⟩
    · rintro ⟨-, hc, h1, h2, h3⟩
      exact ⟨_, ⟨hc, rfl⟩, SignatureParts.ext (ByteString.ext h1.symm) h2.symm h3.symm⟩
  · rw [ByteString.ofBytes?, dif_neg hlen]
    exact ⟨fun h => absurd h (by simp), fun h => absurd h.1 hlen⟩

theorem isSome_decode? {b : Bytes} (hlen : b.length = 4563 + c)
    (hhint : Hint.Canonical ((b.drop (4480 + c)).take 83)) : (decode? c b).isSome := by
  have htake : (b.take c).length = c := by
    rw [List.length_take, hlen]
    omega
  let parts : SignatureParts c :=
    ⟨⟨b.take c, htake⟩, PolyVec.unpack .z 7 c b, Hint.listed ((b.drop (4480 + c)).take 83)⟩
  have h : decode? c b = some parts := decode?_eq_some_iff.2 ⟨hlen, hhint, rfl, rfl, rfl⟩
  rw [h]
  rfl

theorem within_z_decode? {b : Bytes} {p : SignatureParts c} (h : decode? c b = some p) :
    p.z.Within (-524287) 524288 := by
  rw [(decode?_eq_some_iff.1 h).2.2.2.1]
  exact PolyVec.unpack_within Poly.unpack_z_within _ _

theorem decode?_encode {p : SignatureParts c} (hz : p.z.Within (-524287) 524288)
    (h01 : ∀ i j, p.hint.number i j = 0 ∨ p.hint.number i j = 1)
    (hw : p.hint.total ≤ 75) : decode? c p.encode.bytes = some p := by
  have hbytes : p.encode.bytes =
      p.challenge.bytes ++ ((PolyVec.pack .z p.z).bytes ++ (Hint.encode p.hint).bytes) := by
    simp [encode]
  have h1 : p.encode.slice 0 c (by simp) = p.challenge :=
    ByteString.slice_of_append [] _ hbytes rfl (by simp)
  have h2 : PolyVec.unpack .z 7 c p.encode.bytes = p.z :=
    PolyVec.unpack_of_append p.challenge.bytes _ (by simp [hbytes]; rfl) (by simp)
      fun i j => PackedForm.fits_z (hz i j).1 (hz i j).2
  have h3 : p.encode.slice (4480 + c) 83 (by simp; omega) = Hint.encode p.hint :=
    ByteString.slice_of_append (p.challenge.bytes ++ (PolyVec.pack .z p.z).bytes) [] (by simp [hbytes])
      (by simp; omega) (by simp; omega)
  unfold decode?
  rw [ByteString.ofBytes?_bytes]
  simp only [h1, h2, h3, Hint.decode?_encode h01 hw]
  rfl

/-! ## One form for each signature -/

/-- The parts that the format can hold: a response in the range of its packed form, and a hint of at
most 75 ones. -/
structure InRange (p : SignatureParts c) : Prop where
  z_within : p.z.Within (-524287) 524288
  hint_zero_or_one : ∀ i j, p.hint.number i j = 0 ∨ p.hint.number i j = 1
  ones_le : (Finset.univ.filter fun x : Fin 8 × Fin 256 => p.hint.number x.1 x.2 = 1).card ≤ 75

theorem total_hint_eq_card {p : SignatureParts c}
    (h01 : ∀ i j, p.hint.number i j = 0 ∨ p.hint.number i j = 1) :
    p.hint.total =
      (Finset.univ.filter fun x : Fin 8 × Fin 256 => p.hint.number x.1 x.2 = 1).card :=
  PolyVec.total_eq_card_ones h01

theorem InRange.total_hint_le {p : SignatureParts c} (h : p.InRange) : p.hint.total ≤ 75 :=
  (total_hint_eq_card h.hint_zero_or_one).trans_le h.ones_le

theorem encode_of_decode? {b : Bytes} {p : SignatureParts c} (h : decode? c b = some p) :
    p.InRange ∧ p.encode.bytes = b := by
  obtain ⟨hlen, hc, hchallenge, hz, hhint⟩ := decode?_eq_some_iff.1 h
  have hd : Hint.decode? ((b.drop (4480 + c)).take 83) = some p.hint :=
    Hint.decode?_eq_some_iff.2 ⟨hc, hhint⟩
  have h01 := Hint.zero_or_one_of_decode? hd
  obtain ⟨hsection, htotal⟩ := Hint.encode_of_decode? hd
  refine ⟨⟨within_z_decode? h, h01, (total_hint_eq_card h01).symm.trans_le htotal⟩, ?_⟩
  have hresponse : (PolyVec.pack .z p.z).bytes = (b.drop c).take 4480 := by
    rw [hz]
    exact PolyVec.pack_unpack .z (by omega) (by norm_num)
  have hrest : (b.drop (4480 + c)).take 83 = (b.drop c).drop 4480 := by
    rw [List.drop_drop, Nat.add_comm c]
    exact List.take_of_length_le (by rw [List.length_drop]; omega)
  change p.challenge.bytes ++ (PolyVec.pack .z p.z).bytes ++ (Hint.encode p.hint).bytes = b
  rw [hchallenge, hresponse, hsection, hrest, List.append_assoc, List.take_append_drop,
    List.take_append_drop]

/-- **Parts in range and accepted byte strings are the same thing**: encoding and decoding are each
other's inverses, and nothing has two encodings. -/
theorem codec_bijective (c : ℕ) :
    (∀ p : SignatureParts c, p.InRange → decode? c p.encode.bytes = some p) ∧
      (∀ (b : Bytes) (p : SignatureParts c), decode? c b = some p →
        p.InRange ∧ b.length = 4563 + c ∧ p.encode.bytes = b) ∧
      ∀ (b b' : Bytes) (p : SignatureParts c), decode? c b = some p → decode? c b' = some p → b = b' := by
  refine ⟨fun p hp => ?_, fun b p h => ?_, fun b b' p h h' => ?_⟩
  · exact decode?_encode hp.z_within hp.hint_zero_or_one hp.total_hint_le
  · obtain ⟨hp, hb⟩ := encode_of_decode? h
    exact ⟨hp, hb ▸ p.encode.length_eq, hb⟩
  · rw [← (encode_of_decode? h).2, (encode_of_decode? h').2]

/-- The largest response that the format holds, with a hint that fills its section. -/
def extreme (c : ℕ) : SignatureParts c where
  challenge := .zero c
  z := .flat 524288
  hint := .ofFn fun i => .ofFn fun j => if i = 7 ∧ 181 ≤ j then 1 else 0

theorem number_hint_extreme (c : ℕ) (i : Fin 8) (j : Fin 256) :
    (extreme c).hint.number i j = if i = 7 ∧ 181 ≤ j then 1 else 0 := by
  rw [extreme, PolyVec.number, PolyVec.get_ofFn, Poly.number_ofFn]

theorem inRange_extreme (c : ℕ) : (extreme c).InRange := by
  refine ⟨fun i j => ?_, fun i j => ?_, ?_⟩
  · rw [extreme, PolyVec.get_flat, Poly.number_flat]
    decide
  · rw [number_hint_extreme]
    split
    · exact Or.inr rfl
    · exact Or.inl rfl
  · have hones : (Finset.univ.filter fun x : Fin 8 × Fin 256 =>
        (extreme c).hint.number x.1 x.2 = 1) = {7} ×ˢ Finset.Ici 181 := by
      ext x
      rw [Finset.mem_filter, Finset.mem_product, Finset.mem_singleton, Finset.mem_Ici,
        number_hint_extreme]
      simp
    rw [hones, Finset.card_product, Finset.card_singleton, Fin.card_Ici]
    decide

theorem codec_bijective_extreme :
    decode? 64 (extreme 64).encode.bytes = some (extreme 64) ∧
      decode? 32 (extreme 32).encode.bytes = some (extreme 32) ∧
      ∀ b, decode? 64 b = some (extreme 64) → b = (extreme 64).encode.bytes := by
  have h64 := (codec_bijective 64).1 (extreme 64) (inRange_extreme 64)
  have h32 := (codec_bijective 32).1 (extreme 32) (inRange_extreme 32)
  exact ⟨h64, h32, fun b hb => ((codec_bijective 64).2.1 b (extreme 64) hb).2.2.symm⟩

end SignatureParts

end LatticeSignature
