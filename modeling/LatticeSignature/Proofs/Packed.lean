import LatticeSignature.Proofs.BitStream
import LatticeSignature.Proofs.PolyVec

/-!
# Packed polynomials and vectors

Each packed form stores exactly the coefficients of its range: what was packed is unpacked, and
whatever is unpacked lies in the range.

* `PackedForm.Fits`: a coefficient whose stored number has no more bits than the form keeps.
* **`Poly.unpack_pack`**, **`PolyVec.unpack_pack`**: round trips.
* **`Poly.pack_unpack`**, **`PolyVec.pack_unpack`**: bytes are written as they were read.
* `Poly.unpack_t1_within`, …: the ranges of what is unpacked.
* `halfByteEncode`, `Poly.bytes_pack_w1`: the packed high parts, two to a byte.
-/

namespace LatticeSignature

namespace PackedForm

variable {w : ℕ}

/-- The stored number of a coefficient has at most `w` bits. -/
def Fits (form : PackedForm w) (c : Int32) : Prop := (form.code c).toUInt32.toNat < 2 ^ w

theorem toNat_toUInt32 {a : Int32} (h : 0 ≤ a.toInt) : (a.toUInt32.toNat : ℤ) = a.toInt := by
  have ha := BitVec.toInt_eq_toNat_cond a.toBitVec
  rw [Int32.toInt_toBitVec] at ha
  change (a.toBitVec.toNat : ℤ) = _
  split at ha <;> omega

theorem toNat_lt {a : Int32} (h : 0 ≤ a.toInt) (h' : a.toInt < 2 ^ w) : a.toUInt32.toNat < 2 ^ w := by
  have := toNat_toUInt32 h
  exact_mod_cast this.trans_lt h'

theorem fits_t1 {c : Int32} (h : 0 ≤ c.toInt) (h' : c.toInt ≤ 1023) : t1.Fits c :=
  toNat_lt (w := 10) (a := c) h (by norm_num; omega)

theorem fits_w1 {c : Int32} (h : 0 ≤ c.toInt) (h' : c.toInt ≤ 15) : w1.Fits c :=
  toNat_lt (w := 4) (a := c) h (by norm_num; omega)

theorem toNat_sub_lt {k c : Int32} (h : c.toInt ≤ k.toInt) (h' : k.toInt - c.toInt < 2 ^ w)
    (hw : w ≤ 31) : (k - c).toUInt32.toNat < 2 ^ w := by
  have hpow : (2 : ℤ) ^ w ≤ 2 ^ 31 := pow_le_pow_right₀ (by norm_num) hw
  have hsub : (k - c).toInt = k.toInt - c.toInt := Words.toInt_sub (by omega) (by omega)
  exact toNat_lt (by omega) (by omega)

theorem code_t0 (c : Int32) : t0.code c = 4096 - c := rfl

theorem code_eta (c : Int32) : eta.code c = 2 - c := rfl

theorem code_z (c : Int32) : z.code c = 524288 - c := rfl

theorem fits_t0 {c : Int32} (h : -4095 ≤ c.toInt) (h' : c.toInt ≤ 4096) : t0.Fits c :=
  toNat_sub_lt (k := 4096) h' (by change 4096 - c.toInt < _; norm_num; omega) (by norm_num)

theorem fits_eta {c : Int32} (h : -5 ≤ c.toInt) (h' : c.toInt ≤ 2) : eta.Fits c :=
  toNat_sub_lt (k := 2) h' (by change 2 - c.toInt < _; norm_num; omega) (by norm_num)

theorem fits_z {c : Int32} (h : -524287 ≤ c.toInt) (h' : c.toInt ≤ 524288) : z.Fits c :=
  toNat_sub_lt (k := 524288) h' (by change 524288 - c.toInt < _; norm_num; omega) (by norm_num)

end PackedForm

/-! ## Polynomials -/

namespace Poly

variable {w : ℕ}

theorem number_ofList {d : Domain} (l : List Int32) (j : Fin 256) :
    (ofList l : Poly d).number j = l.getD j 0 := by
  rw [ofList, number_ofFn]
  simp

theorem bytes_pack (form : PackedForm w) (p : Poly .plain) :
    (pack form p).bytes =
      BitStream.pack w (p.coeffs.toList.map fun c => (form.code c).toUInt32.toNat) := rfl

theorem number_unpack (form : PackedForm w) (b : Bytes) (j : Fin 256) :
    (unpack form b).number j =
      form.code (Int32.ofNat (BitStream.ofBytes b / 2 ^ (w * j) % 2 ^ w)) := by
  rw [unpack, number_ofList, BitStream.unpack_eq]
  simp

/-- **What was packed is unpacked.** -/
theorem unpack_pack (form : PackedForm w) {p : Poly .plain}
    (h : ∀ j, form.Fits (p.number j)) : unpack form (pack form p).bytes = p := by
  let numbers : List ℕ := p.coeffs.toList.map fun c => (form.code c).toUInt32.toNat
  have hlen : numbers.length = 256 := by simp [numbers]
  have hb : BitStream.unpack w 256 (pack form p).bytes = numbers.map (· % 2 ^ w) := by
    have := BitStream.unpack_pack w numbers (by rw [hlen]; exact ⟨32 * w, by ring⟩)
    rw [hlen] at this
    exact this
  refine ext_getElem fun i hi => ?_
  have hmod : (form.code p[i]).toUInt32.toNat % 2 ^ w = (form.code p[i]).toUInt32.toNat :=
    Nat.mod_eq_of_lt (h ⟨i, hi⟩)
  have hword : Int32.ofNat (form.code p[i]).toUInt32.toNat = form.code p[i] :=
    Int32.toBitVec_inj.1 (BitVec.ofNat_toNat _ _)
  rw [← number_mk _ hi, unpack, number_ofList, hb]
  simp [numbers, hi, hmod, hword, form.code_code]

/-- **What was unpacked is packed again.** -/
theorem pack_unpack (form : PackedForm w) {b : Bytes} (hb : b.length = 32 * w) (hw : w ≤ 32) :
    (pack form (unpack form b)).bytes = b := by
  have hpow : 2 ^ w ≤ 2 ^ 32 := Nat.pow_le_pow_right (by norm_num) hw
  have hcode : ∀ j : Fin 256, (form.code ((unpack form b).number j)).toUInt32.toNat =
      BitStream.ofBytes b / 2 ^ (w * j) % 2 ^ w := by
    intro j
    obtain ⟨v, hv⟩ : ∃ v, BitStream.ofBytes b / 2 ^ (w * j.val) % 2 ^ w = v := ⟨_, rfl⟩
    have hlt : v < 2 ^ 32 := (hv ▸ Nat.mod_lt _ (by positivity) : v < 2 ^ w).trans_le hpow
    have hword : (Int32.ofNat v).toUInt32 = UInt32.ofNat v := rfl
    rw [number_unpack, form.code_code, hv, hword]
    exact UInt32.toNat_ofNat_of_lt hlt
  have hnumbers : ((unpack form b).coeffs.toList.map fun c => (form.code c).toUInt32.toNat) =
      BitStream.unpack w 256 b := by
    rw [BitStream.unpack_eq]
    refine List.ext_getElem (by simp) fun j hj _ => ?_
    have hj : j < 256 := by simpa using hj
    rw [List.getElem_map, List.getElem_map, List.getElem_range, Vector.getElem_toList]
    exact hcode ⟨j, hj⟩
  rw [bytes_pack, hnumbers]
  exact BitStream.pack_unpack w 256 b (by rw [hb]; ring)

theorem unpack_take (form : PackedForm w) (b : Bytes) : unpack form (b.take (32 * w)) = unpack form b := by
  rcases le_or_gt b.length (32 * w) with hshort | hlong
  · rw [List.take_of_length_le hshort]
  refine ext_number fun j => ?_
  have hall : w * 256 = w * j.val + (w + w * (255 - j.val)) := by
    calc w * 256 = w * (j.val + (1 + (255 - j.val))) := by congr 1; omega
      _ = w * j.val + (w + w * (255 - j.val)) := by ring
  have hsplit : BitStream.ofBytes b = BitStream.ofBytes (b.take (32 * w)) +
      2 ^ (w * j.val) * (2 ^ w * (2 ^ (w * (255 - j.val)) * BitStream.ofBytes (b.drop (32 * w)))) := by
    conv_lhs => rw [← List.take_append_drop (32 * w) b, BitStream.ofBytes_append,
      List.length_take_of_le hlong.le]
    rw [← Nat.mul_assoc (2 ^ w), ← Nat.mul_assoc, ← pow_add, ← pow_add, ← hall,
      show 256 = 2 ^ 8 from rfl, ← pow_mul]
    congr 3
    ring
  rw [number_unpack, number_unpack, hsplit, Nat.add_mul_div_left _ _ (Nat.two_pow_pos _),
    Nat.add_mul_mod_self_left]

theorem unpack_within_of_sub {form : PackedForm w} (k : Int32) (hform : ∀ c, form.code c = k - c)
    (lo hi : ℤ) (hk : k.toInt = hi) (hlo : lo = hi - 2 ^ w + 1) (hhi : 0 ≤ hi) (hw : w ≤ 30)
    (b : Bytes) : (unpack form b).Within lo hi := by
  intro j
  have hpow : (2 : ℤ) ^ w ≤ 2 ^ 30 := pow_le_pow_right₀ (by norm_num) hw
  have hmax := k.toInt_lt
  obtain ⟨v, hv⟩ : ∃ v, BitStream.ofBytes b / 2 ^ (w * j) % 2 ^ w = v := ⟨_, rfl⟩
  have hlt : (v : ℤ) < 2 ^ w := by
    rw [← hv]
    exact_mod_cast Nat.mod_lt _ (by positivity)
  have hnum : (Int32.ofNat v).toInt = v := Int32.toInt_ofNat_of_lt (by norm_num; omega)
  rw [number_unpack, hform, hv, Words.toInt_sub (by rw [hnum]; omega) (by rw [hnum]; omega), hnum]
  omega

theorem unpack_t0_within (b : Bytes) : (unpack .t0 b).Within (-4095) 4096 :=
  unpack_within_of_sub 4096 PackedForm.code_t0 (-4095) 4096 rfl (by norm_num) (by norm_num) (by norm_num) b

theorem unpack_eta_within (b : Bytes) : (unpack .eta b).Within (-5) 2 :=
  unpack_within_of_sub 2 PackedForm.code_eta (-5) 2 rfl (by norm_num) (by norm_num) (by norm_num) b

theorem unpack_z_within (b : Bytes) : (unpack .z b).Within (-524287) 524288 :=
  unpack_within_of_sub 524288 PackedForm.code_z (-524287) 524288 rfl (by norm_num) (by norm_num)
    (by norm_num) b

theorem unpack_t1_within (b : Bytes) : (unpack .t1 b).Within 0 1023 := by
  intro j
  obtain ⟨v, hv⟩ : ∃ v, BitStream.ofBytes b / 2 ^ (10 * j.val) % 2 ^ 10 = v := ⟨_, rfl⟩
  have hlt : v < 1024 := hv ▸ Nat.mod_lt _ (by norm_num)
  rw [number_unpack, hv]
  change 0 ≤ (Int32.ofNat v).toInt ∧ (Int32.ofNat v).toInt ≤ 1023
  rw [Int32.toInt_ofNat_of_lt (by norm_num; omega)]
  omega

end Poly

/-! ## High parts, two to a byte -/

/-- Numbers below 16, two to a byte, the first of them in the low half. -/
def halfByteEncode (w : Fin 256 → ℤ) : Bytes :=
  List.ofFn fun p : Fin 128 =>
    (w ⟨2 * p.val, by omega⟩ + 16 * w ⟨2 * p.val + 1, by omega⟩).toNat.toUInt8

/-- **High parts are packed two to a byte.** -/
theorem Poly.bytes_pack_w1 {p : Poly .plain} (h : p.Within 0 15) :
    (pack .w1 p).bytes = halfByteEncode fun j => (p.number j).toInt := by
  let numbers : List ℕ := p.coeffs.toList.map fun c => (PackedForm.w1.code c).toUInt32.toNat
  have hlen : numbers.length = 256 := by simp [numbers]
  have hdigit : ∀ (i : ℕ) (hi : i < 256),
      BitStream.number 4 numbers / 2 ^ (4 * i) % 16 = p[i].toInt.toNat := by
    intro i hi
    have hi' := h ⟨i, hi⟩
    rw [number_mk] at hi'
    have := PackedForm.toNat_toUInt32 hi'.1
    refine (BitStream.number_div_mod 4 numbers i (by omega)).trans ?_
    rw [List.getElem_map, Vector.getElem_toList, getElem_coeffs]
    change p[i].toUInt32.toNat % 16 = _
    omega
  have hbytes : (pack .w1 p).bytes = BitStream.lowBytes 128 (BitStream.number 4 numbers) := by
    have := BitStream.pack_eq 4 numbers
    rw [hlen] at this
    exact this
  have hpow : ∀ j : ℕ, 256 ^ j = 2 ^ (8 * j) := fun j => (pow_mul 2 8 j).symm
  rw [hbytes, halfByteEncode]
  refine List.ext_getElem ?_ fun j hj hj' => ?_
  · rw [BitStream.length_lowBytes, List.length_ofFn]
  have hj128 : j < 128 := by rwa [BitStream.length_lowBytes] at hj
  rw [BitStream.getElem_lowBytes, List.getElem_ofFn]
  -- a byte of the stream holds two consecutive digits to the base 16
  obtain ⟨N, hN⟩ : ∃ N, BitStream.number 4 numbers / 256 ^ j = N := ⟨_, rfl⟩
  have h0 : N % 16 = p[2 * j].toInt.toNat := by
    rw [← hdigit (2 * j) (by omega), ← hN, hpow, ← Nat.mul_assoc]
  have h1 : N / 16 % 16 = p[2 * j + 1].toInt.toNat := by
    rw [← hdigit (2 * j + 1) (by omega), ← hN, hpow, Nat.div_div_eq_div_mul,
      show 4 * (2 * j + 1) = 8 * j + 4 by ring, pow_add]
    rfl
  have hlo := h ⟨2 * j, by omega⟩
  have hhi := h ⟨2 * j + 1, by omega⟩
  rw [number_mk] at hlo hhi
  change (BitStream.number 4 numbers / 256 ^ j).toUInt8 =
    (p[2 * j].toInt + 16 * p[2 * j + 1].toInt).toNat.toUInt8
  rw [hN, ← BitStream.toUInt8_mod]
  congr 1
  omega

/-! ## Vectors -/

namespace PolyVec

variable {w n : ℕ}

theorem take_drop_flatMap {m : ℕ} (blocks : List (ByteString m)) (later : Bytes) (i : ℕ)
    (h : i < blocks.length) :
    ((blocks.flatMap ByteString.bytes ++ later).drop (i * m)).take m = blocks[i].bytes := by
  induction blocks generalizing i with
  | nil => exact absurd h (Nat.not_lt_zero i)
  | cons b blocks ih =>
    rw [List.flatMap_cons, List.append_assoc]
    cases i with
    | zero => rw [Nat.zero_mul, List.drop_zero]; exact List.take_left' b.length_eq
    | succ i =>
      rw [Nat.succ_mul, Nat.add_comm, ← List.drop_drop, List.drop_left' b.length_eq]
      exact ih i (Nat.lt_of_succ_lt_succ h)

theorem unpack_pack (form : PackedForm w) {v : PolyVec .plain n} (earlier later : Bytes)
    (h : ∀ i j, form.Fits (v.number i j)) :
    unpack form n earlier.length (earlier ++ (pack form v).bytes ++ later) = v := by
  refine ext_entries fun i => ?_
  have hblock := take_drop_flatMap (Vector.map (Poly.pack form) v).toList later i (by simp)
  have hget : (unpack form n earlier.length (earlier ++ (pack form v).bytes ++ later)).get i =
      Poly.unpack form (((earlier ++ (pack form v).bytes ++ later).drop
        (earlier.length + i.val * (32 * w))).take (32 * w)) := Vector.getElem_ofFn _
  rw [hget, List.append_assoc, ← List.drop_drop, List.drop_left]
  change Poly.unpack form ((((Vector.map (Poly.pack form) v).toList.flatMap ByteString.bytes ++
    later).drop (i.val * (32 * w))).take (32 * w)) = _
  rw [hblock, Vector.getElem_toList, Vector.getElem_map]
  exact Poly.unpack_pack form (h i)

theorem eq_of_pack_eq {form : PackedForm w} {u v : PolyVec .plain n}
    (hu : ∀ i j, form.Fits (u.number i j)) (hv : ∀ i j, form.Fits (v.number i j))
    (h : (pack form u).bytes = (pack form v).bytes) : u = v := by
  rw [← unpack_pack form [] [] hu, h]
  exact unpack_pack form [] [] hv

theorem unpack_take (form : PackedForm w) {start m : ℕ} (b : Bytes) (h : start + n * (32 * w) ≤ m) :
    unpack form n start (b.take m) = unpack form n start b := by
  refine congrArg Vector.ofFn (funext fun i => ?_)
  have hblock : (i.val + 1) * (32 * w) ≤ n * (32 * w) := Nat.mul_le_mul_right _ i.isLt
  rw [Nat.succ_mul] at hblock
  rw [List.drop_take, List.take_take, Nat.min_eq_left (by omega)]

theorem flatMap_blocks (b : Bytes) (start m n : ℕ) :
    ((List.range n).flatMap fun i => (b.drop (start + i * m)).take m) = (b.drop start).take (n * m) := by
  induction n with
  | zero => simp
  | succ n ih =>
    rw [List.range_succ, List.flatMap_append, ih, List.flatMap_singleton, Nat.succ_mul, List.take_add,
      List.drop_drop]

theorem pack_unpack (form : PackedForm w) {start : ℕ} {b : Bytes}
    (hb : start + n * (32 * w) ≤ b.length) (hw : w ≤ 32) :
    (pack form (unpack form n start b)).bytes = (b.drop start).take (n * (32 * w)) := by
  have hentry : ∀ i < n,
      (Poly.pack form (Poly.unpack form ((b.drop (start + i * (32 * w))).take (32 * w)))).bytes =
        (b.drop (start + i * (32 * w))).take (32 * w) := by
    intro i hi
    have hblock : (i + 1) * (32 * w) ≤ n * (32 * w) := Nat.mul_le_mul_right _ hi
    rw [Nat.succ_mul] at hblock
    exact Poly.pack_unpack form (by rw [List.length_take, List.length_drop]; omega) hw
  have hmap : (Vector.map (Poly.pack form) (unpack form n start b)).toList.map ByteString.bytes =
      (List.range n).map fun i => (b.drop (start + i * (32 * w))).take (32 * w) := by
    refine List.ext_getElem (by simp) fun i hi _ => ?_
    have hi : i < n := by simpa using hi
    have hget : (unpack form n start b)[i] =
      Poly.unpack form ((b.drop (start + i * (32 * w))).take (32 * w)) := Vector.getElem_ofFn _
    rw [List.getElem_map, List.getElem_map, List.getElem_range, Vector.getElem_toList,
      Vector.getElem_map, hget]
    exact hentry i hi
  change (Vector.map (Poly.pack form) (unpack form n start b)).toList.flatMap ByteString.bytes = _
  rw [List.flatMap_def, hmap, ← List.flatMap_def, flatMap_blocks]

theorem unpack_within {form : PackedForm w} {lo hi : ℤ}
    (h : ∀ b, (Poly.unpack form b).Within lo hi) (start : ℕ) (b : Bytes) :
    (unpack form n start b).Within lo hi := by
  intro i
  have hget : (unpack form n start b).get i =
    Poly.unpack form ((b.drop (start + i.val * (32 * w))).take (32 * w)) := Vector.getElem_ofFn _
  rw [hget]
  exact h _

theorem bytes_pack_w1 {v : PolyVec .plain n} (h : v.Within 0 15) :
    (pack .w1 v).bytes =
      (List.ofFn fun i : Fin n => halfByteEncode fun j => (v.number i j).toInt).flatten := by
  have hmap : (Vector.map (Poly.pack .w1) v).toList.map ByteString.bytes =
      List.ofFn fun i : Fin n => halfByteEncode fun j => (v.number i j).toInt := by
    refine List.ext_getElem (by simp) fun i hi _ => ?_
    rw [List.getElem_map, List.getElem_ofFn, Vector.getElem_toList, Vector.getElem_map]
    exact Poly.bytes_pack_w1 (h ⟨i, by simpa using hi⟩)
  rw [← hmap]
  exact List.flatMap_def ..

end PolyVec

end LatticeSignature
