import LatticeSignature.Proofs.Checked.Basic
import LatticeSignature.Proofs.Packed

/-!
# Checked bit streams

Packing and unpacking by way of an accumulator and a position in a buffer. The accumulator never
holds more than seven bits and one number, and the position stays inside the buffer: it is reached
when the last number has been written or read.

* **`BitStream.foldlM_write_eq`**, **`BitStream.loopFrom_readNumber_eq`**: all numbers of a polynomial.
* `Poly.checkedPack_eq`, `Poly.checkedUnpack_eq`: packed polynomials.
-/

namespace LatticeSignature

open Checked

namespace BitStream

/-! ## Packing -/

/-- A buffer with the position of the next byte, and the bits that wait for a byte to fill up. -/
structure Packer where
  out : Bytes
  pos : ℕ
  acc : ℕ
  filled : ℕ

def Packer.writeByte (w : Packer) : Checked Packer := do
  let out ← store w.out w.pos w.acc.toUInt8
  let filled ← minus w.filled 8
  return ⟨out, w.pos + 1, w.acc >>> 8, filled⟩

/-- Puts the low bits of a number behind the waiting ones and writes the bytes that are full. -/
def Packer.write (width : ℕ) (w : Packer) (v : ℕ) : Checked Packer := do
  let acc ← unsigned 64 (w.acc ||| (v % 2 ^ width) <<< w.filled)
  let filled := w.filled + width
  loop (fun _ => writeByte) (filled / 8) ⟨w.out, w.pos, acc, filled⟩

section Packing

variable {written room : Bytes} {acc filled : ℕ}

theorem loop_writeByte_eq {k : ℕ} (hk : 8 * k ≤ filled) (hroom : k ≤ room.length) :
    loop (fun _ => Packer.writeByte) k ⟨written ++ room, written.length, acc, filled⟩ =
      .ok ⟨written ++ lowBytes k acc ++ room.drop k, written.length + k, acc >>> (8 * k),
        filled - 8 * k⟩ := by
  have hstep : ∀ i < k, Packer.writeByte ⟨written ++ lowBytes i acc ++ room.drop i,
      written.length + i, acc >>> (8 * i), filled - 8 * i⟩ =
        .ok ⟨written ++ lowBytes (i + 1) acc ++ room.drop (i + 1), written.length + (i + 1),
          acc >>> (8 * (i + 1)), filled - 8 * (i + 1)⟩ := by
    intro i hi
    have hlength : written.length + i = (written ++ lowBytes i acc).length := by simp
    have hshift : acc >>> (8 * i) >>> 8 = acc >>> (8 * (i + 1)) := by
      rw [← Nat.shiftRight_add, Nat.mul_succ]
    have hlow : lowBytes (i + 1) acc = lowBytes i acc ++ [(acc >>> (8 * i)).toUInt8] := by
      rw [lowBytes_add, Nat.shiftRight_eq_div_pow, pow_mul]
      rfl
    have hstore : store (written ++ lowBytes i acc ++ room.drop i) (written.length + i)
        (acc >>> (8 * i)).toUInt8 = .ok (written ++ lowBytes (i + 1) acc ++ room.drop (i + 1)) := by
      rw [List.drop_eq_getElem_cons (by omega), hlength, store_append, hlow]
      simp
    rw [Packer.writeByte, bind_of_eq hstore, bind_of_eq (minus_eq (by simp only; omega)), hshift]
    simp only [Nat.mul_succ, Nat.sub_sub, Nat.add_assoc]
    rfl
  have h := @loop_eq _ (fun _ => Packer.writeByte) (fun i => ⟨written ++ lowBytes i acc ++ room.drop i,
      written.length + i, acc >>> (8 * i), filled - 8 * i⟩) _ hstep
  simpa [lowBytes] using h

theorem or_shiftLeft_lt {width v : ℕ} (hacc : acc < 2 ^ filled) (hv : v < 2 ^ width) :
    acc ||| v <<< filled < 2 ^ (filled + width) := by
  refine Nat.or_lt_two_pow (hacc.trans_le (Nat.pow_le_pow_right Nat.two_pos (Nat.le_add_right _ _))) ?_
  rw [Nat.shiftLeft_eq, Nat.add_comm, pow_add]
  exact Nat.mul_lt_mul_of_pos_right hv (Nat.two_pow_pos _)

theorem fits_of_lt {n k : ℕ} (h : n < 2 ^ k) (hk : k ≤ 64) : unsigned 64 n = .ok n :=
  unsigned_eq (h.trans_le (Nat.pow_le_pow_right Nat.two_pos hk))

theorem write_eq {width : ℕ} (hwidth : width ≤ 32) (v : ℕ) (hacc : acc < 2 ^ filled)
    (hfilled : filled < 8) (hroom : (filled + width) / 8 ≤ room.length) :
    Packer.write width ⟨written ++ room, written.length, acc, filled⟩ v =
      .ok ⟨written ++ lowBytes ((filled + width) / 8) (acc ||| (v % 2 ^ width) <<< filled) ++
          room.drop ((filled + width) / 8),
        written.length + (filled + width) / 8,
        (acc ||| (v % 2 ^ width) <<< filled) >>> (8 * ((filled + width) / 8)),
        (filled + width) % 8⟩ := by
  have hlt := or_shiftLeft_lt hacc (Nat.mod_lt v (Nat.two_pow_pos width))
  rw [Packer.write, bind_of_eq (fits_of_lt hlt (by omega))]
  simp only
  rw [loop_writeByte_eq (Nat.mul_div_le _ 8) hroom, ← Nat.mod_eq_sub_mul_div]

/-- **Writing numbers** of at most 32 bits into a buffer with enough room. -/
theorem foldlM_write_eq {width : ℕ} (hwidth : width ≤ 32) (numbers : List ℕ) (hacc : acc < 2 ^ filled)
    (hfilled : filled < 8) (hroom : (filled + width * numbers.length) / 8 ≤ room.length) :
    ∃ w : Packer, numbers.foldlM (Packer.write width) ⟨written ++ room, written.length, acc, filled⟩ =
        .ok w ∧
      w.out = written ++ packFrom width acc filled (numbers.map (· % 2 ^ width)) ++
        room.drop ((filled + width * numbers.length) / 8) := by
  induction numbers generalizing written room acc filled with
  | nil => exact ⟨_, rfl, by simp [packFrom, Nat.div_eq_of_lt hfilled]⟩
  | cons v numbers ih =>
    have hlt := or_shiftLeft_lt hacc (Nat.mod_lt v (Nat.two_pow_pos width))
    obtain ⟨k, r, hk, hr, hkr⟩ : ∃ k r, (filled + width) / 8 = k ∧ (filled + width) % 8 = r ∧
        filled + width = 8 * k + r := ⟨_, _, rfl, rfl, (Nat.div_add_mod _ _).symm⟩
    have hcount : (filled + width * (v :: numbers).length) / 8 =
        k + (r + width * numbers.length) / 8 := by
      rw [List.length_cons, Nat.mul_succ]
      omega
    rw [hcount] at hroom ⊢
    have hnext : (acc ||| (v % 2 ^ width) <<< filled) >>> (8 * k) < 2 ^ r := by
      rw [Nat.shiftRight_eq_div_pow]
      exact Nat.div_lt_of_lt_mul (by rwa [← pow_add, ← hkr])
    obtain ⟨w, hw, hout⟩ := @ih (written ++ lowBytes k (acc ||| (v % 2 ^ width) <<< filled))
      (room.drop k) _ r hnext (by omega) (by rw [List.length_drop]; omega)
    refine ⟨w, ?_, ?_⟩
    · rw [List.foldlM_cons, bind_of_eq (write_eq hwidth v hacc hfilled (by omega)), hk, hr, ← hw,
        List.length_append, length_lowBytes]
    · rw [hout, List.map_cons, packFrom]
      simp only [hk, hr, List.append_assoc, List.drop_drop]

theorem foldlM_write_eq_pack {width : ℕ} (hwidth : width ≤ 32) {numbers : List ℕ} {buffer : Bytes}
    (hbuffer : buffer.length = width * numbers.length / 8) :
    ∃ w : Packer, numbers.foldlM (Packer.write width) ⟨buffer, 0, 0, 0⟩ = .ok w ∧
      w.out = pack width numbers := by
  have hall : (0 + width * numbers.length) / 8 = buffer.length := by rw [Nat.zero_add, hbuffer]
  have h := @foldlM_write_eq [] buffer 0 0 width hwidth numbers Nat.one_pos (by norm_num) hall.le
  rw [hall, List.drop_length, List.append_nil, List.nil_append, List.nil_append] at h
  rwa [pack, Nat.one_shiftLeft]

end Packing

/-! ## Unpacking -/

/-- The position of the next byte, and the bits that wait for a number to fill up. -/
structure Unpacker where
  pos : ℕ
  acc : ℕ
  filled : ℕ

def Unpacker.readByte (bytes : Bytes) (u : Unpacker) : Checked Unpacker := do
  let b ← elem bytes u.pos
  let acc ← unsigned 64 (u.acc ||| b.toNat <<< u.filled)
  return ⟨u.pos + 1, acc, u.filled + 8⟩

/-- Reads bytes until a number is there, and takes it off. -/
def Unpacker.read (width : ℕ) (bytes : Bytes) (u : Unpacker) : Checked (Int32 × Unpacker) := do
  let u ← loop (fun _ => readByte bytes) ((width - u.filled + 7) / 8) u
  let v ← word (u.acc % 2 ^ width : ℕ)
  let filled ← minus u.filled width
  return (v, ⟨u.pos, u.acc >>> width, filled⟩)

section Unpacking

variable {bytes : Bytes} {pos acc filled : ℕ}

theorem ofBytes_concat (bs : Bytes) (b : UInt8) :
    ofBytes (bs ++ [b]) = ofBytes bs ||| b.toNat <<< (8 * bs.length) := by
  have hlt : ofBytes bs < 2 ^ (8 * bs.length) := by
    rw [pow_mul]
    exact ofBytes_lt bs
  rw [Nat.or_comm, ← Nat.shiftLeft_add_eq_or_of_lt hlt, Nat.shiftLeft_eq, ofBytes_append, pow_mul,
    ofBytes_cons, Nat.add_comm, Nat.mul_comm]
  simp [ofBytes]

theorem loop_readByte_eq {k : ℕ} (hacc : acc < 2 ^ filled) (hk : filled + 8 * k ≤ 64)
    (hpos : pos + k ≤ bytes.length) :
    loop (fun _ => Unpacker.readByte bytes) k ⟨pos, acc, filled⟩ =
      .ok ⟨pos + k, acc ||| ofBytes ((bytes.drop pos).take k) <<< filled, filled + 8 * k⟩ := by
  have hstep : ∀ i < k, Unpacker.readByte bytes
      ⟨pos + i, acc ||| ofBytes ((bytes.drop pos).take i) <<< filled, filled + 8 * i⟩ =
        .ok ⟨pos + (i + 1), acc ||| ofBytes ((bytes.drop pos).take (i + 1)) <<< filled,
          filled + 8 * (i + 1)⟩ := by
    intro i hi
    have hlt : i < (bytes.drop pos).length := by rw [List.length_drop]; omega
    have htake : (bytes.drop pos).take (i + 1) = (bytes.drop pos).take i ++ [bytes[pos + i]] := by
      rw [List.take_succ_eq_append_getElem hlt, List.getElem_drop]
    have hnext : acc ||| ofBytes ((bytes.drop pos).take i) <<< filled |||
        bytes[pos + i].toNat <<< (filled + 8 * i) =
          acc ||| ofBytes ((bytes.drop pos).take (i + 1)) <<< filled := by
      rw [htake, ofBytes_concat, List.length_take_of_le hlt.le, Nat.shiftLeft_or_distrib,
        ← Nat.shiftLeft_add, Nat.add_comm (8 * i), Nat.or_assoc]
    have hbound : acc ||| ofBytes ((bytes.drop pos).take (i + 1)) <<< filled <
        2 ^ (filled + 8 * (i + 1)) := by
      refine or_shiftLeft_lt hacc ?_
      rw [pow_mul]
      exact (ofBytes_lt _).trans_le (Nat.pow_le_pow_right (by norm_num) (List.length_take_le _ _))
    rw [Unpacker.readByte, bind_of_eq (elem_eq (by simp only; omega)), hnext,
      bind_of_eq (fits_of_lt hbound (by omega)), Nat.mul_succ]
    rfl
  have h := @loop_eq _ (fun _ => Unpacker.readByte bytes)
    (fun i => ⟨pos + i, acc ||| ofBytes ((bytes.drop pos).take i) <<< filled, filled + 8 * i⟩) _ hstep
  simpa [ofBytes] using h

/-- **Reading a number** of at most 31 bits. -/
theorem read_eq {width : ℕ} (hwidth : width ≤ 31) (hacc : acc < 2 ^ filled) (hfilled : filled < 8)
    (hpos : pos + (width - filled + 7) / 8 ≤ bytes.length) :
    Unpacker.read width bytes ⟨pos, acc, filled⟩ =
      .ok (.ofNat ((acc ||| ofBytes ((bytes.drop pos).take ((width - filled + 7) / 8)) <<< filled) %
          2 ^ width),
        ⟨pos + (width - filled + 7) / 8,
          (acc ||| ofBytes ((bytes.drop pos).take ((width - filled + 7) / 8)) <<< filled) >>> width,
          filled + 8 * ((width - filled + 7) / 8) - width⟩) := by
  have hpow : 2 ^ width ≤ 2 ^ 31 := Nat.pow_le_pow_right Nat.two_pos hwidth
  have hv : ∀ n : ℕ, word (n % 2 ^ width : ℕ) = .ok (.ofNat (n % 2 ^ width)) := fun n =>
    word_eq (Int32.toInt_ofNat_of_lt ((Nat.mod_lt n (Nat.two_pow_pos width)).trans_le hpow))
  rw [Unpacker.read, bind_of_eq (loop_readByte_eq hacc (by omega) hpos), bind_of_eq (hv _),
    bind_of_eq (minus_eq (by simp only; omega))]
  rfl

end Unpacking

end BitStream

/-! ## Packed polynomials -/

/-- A packed form with its map as it is computed. -/
structure CheckedForm (w : ℕ) extends PackedForm w where
  checkedCode : Int32 → Checked Int32
  checkedCode_eq : ∀ c, |c.toInt| ≤ 1073741824 → checkedCode c = .ok (code c)

namespace CheckedForm

theorem sub_offset {k : Int32} (hk : |k.toInt| ≤ 524288) (c : Int32) (hc : |c.toInt| ≤ 1073741824) :
    Checked.sub k c = .ok (k - c) := by
  obtain ⟨hk, hk'⟩ := abs_le.1 hk
  obtain ⟨hc, hc'⟩ := abs_le.1 hc
  exact (sub_eq rfl rfl (by linarith) (by linarith)).1

def t1 : CheckedForm 10 := { PackedForm.t1 with checkedCode := .ok, checkedCode_eq := fun _ _ => rfl }

def t0 : CheckedForm 13 :=
  { PackedForm.t0 with checkedCode := Checked.sub 4096, checkedCode_eq := sub_offset (by decide) }

def eta : CheckedForm 3 :=
  { PackedForm.eta with checkedCode := Checked.sub Params.eta, checkedCode_eq := sub_offset (by decide) }

def z : CheckedForm 20 :=
  { PackedForm.z with checkedCode := Checked.sub Params.gamma1, checkedCode_eq := sub_offset (by decide) }

def w1 : CheckedForm 4 := { PackedForm.w1 with checkedCode := .ok, checkedCode_eq := fun _ _ => rfl }

end CheckedForm

namespace Poly

open BitStream

variable {w : ℕ}

def checkedWriteNumber (form : CheckedForm w) (c : Int32) (packer : Packer) : Checked Packer := do
  let v ← form.checkedCode c
  packer.write w v.toUInt32.toNat

/-- Writes a polynomial to the front of a buffer. -/
def checkedPack (form : CheckedForm w) (p : Poly .plain) (buffer : Bytes) : Checked Bytes := do
  let front ← slice buffer 0 (32 * w)
  let packer ← loop (fun i packer => do
    let c ← get p.coeffs i
    checkedWriteNumber form c packer) 256 ⟨front, 0, 0, 0⟩
  splice buffer 0 packer.out

/-- Reads coefficient `i`. -/
def checkedReadNumber (form : CheckedForm w) (bytes : Bytes) (i : ℕ)
    (state : Unpacker × Vector Int32 256) : Checked (Unpacker × Vector Int32 256) := do
  let (v, u) ← state.1.read w bytes
  let c ← form.checkedCode v
  let a ← set state.2 i c
  return (u, a)

/-- Reads a polynomial from the front of a buffer. -/
def checkedUnpack (form : CheckedForm w) (buffer : Bytes) : Checked (Poly .plain) := do
  let front ← slice buffer 0 (32 * w)
  let (_, a) ← loop (checkedReadNumber form front) 256 (⟨0, 0, 0⟩, .replicate 256 0)
  return ⟨a⟩

variable {form : CheckedForm w}

/-- **Packing does not fault** in a buffer of the packed length. -/
theorem checkedPack_eq (hw : w ≤ 32) {p : Poly .plain} {buffer : Bytes}
    (hp : p.Within (-1073741824) 1073741824) (hbuffer : buffer.length = 32 * w) :
    p.checkedPack form buffer = .ok (p.pack form.toPackedForm).bytes := by
  have hloop : loop (fun i packer => do
      let c ← get p.coeffs i
      checkedWriteNumber form c packer) 256 ⟨buffer, 0, 0, 0⟩ =
        (p.coeffs.toList.map fun c => (form.code c).toUInt32.toNat).foldlM (Packer.write w)
          ⟨buffer, 0, 0, 0⟩ := by
    rw [loop_get, List.foldlM_map]
    refine foldlM_congr fun packer c hc => ?_
    obtain ⟨j, rfl⟩ := exists_get hc
    have hcode := form.checkedCode_eq (p.coeffs.get j) (abs_le.2 (hp j))
    rw [checkedWriteNumber, bind_of_eq hcode]
  obtain ⟨packer, hpacker, hout⟩ := @foldlM_write_eq_pack w hw
    (p.coeffs.toList.map fun c => (form.code c).toUInt32.toNat) buffer (by simp; omega)
  rw [checkedPack, bind_of_eq (slice_all hbuffer), hloop, bind_of_eq hpacker, hout, ← bytes_pack]
  exact splice_all (by simp [hbuffer])

theorem set_ofList {l : List Int32} (hl : l.length < 256) (c : Int32) :
    (ofList l : Poly .plain).coeffs.set l.length c = (ofList (l ++ [c]) : Poly .plain).coeffs := by
  ext i hi
  have hget (l : List Int32) : (ofList l : Poly .plain).coeffs[i] = l.getD i 0 :=
    number_ofList l ⟨i, hi⟩
  rw [Vector.getElem_set, hget, hget]
  grind

theorem loopFrom_readNumber_eq (hw : w ≤ 30) (bytes : Bytes) {n pos acc filled : ℕ} {l : List Int32}
    (hl : l.length + n ≤ 256) (hacc : acc < 2 ^ filled) (hfilled : filled < 8)
    (hpos : pos ≤ bytes.length) (hbits : w * n ≤ filled + 8 * (bytes.length - pos)) :
    ∃ u : Unpacker, loopFrom (checkedReadNumber form bytes) l.length n
        (⟨pos, acc, filled⟩, (ofList l : Poly .plain).coeffs) =
      .ok (u, (ofList (l ++ (unpackFrom w (2 ^ w) n acc filled (bytes.drop pos)).map fun v =>
        form.code (Int32.ofNat v)) : Poly .plain).coeffs) := by
  induction n generalizing pos acc filled l with
  | zero =>
    refine ⟨⟨pos, acc, filled⟩, ?_⟩
    rw [unpackFrom, List.map_nil, List.append_nil]
    rfl
  | succ n ih =>
    obtain ⟨k, hk⟩ : ∃ k, (w - filled + 7) / 8 = k := ⟨_, rfl⟩
    obtain ⟨a, ha⟩ : ∃ a, acc ||| ofBytes ((bytes.drop pos).take k) <<< filled = a := ⟨_, rfl⟩
    rw [Nat.mul_succ] at hbits
    have hread := @read_eq bytes pos acc filled w (by omega) hacc hfilled (by omega)
    have halt : a < 2 ^ (filled + 8 * k) := by
      rw [← ha]
      refine or_shiftLeft_lt hacc ?_
      rw [pow_mul]
      exact (ofBytes_lt _).trans_le (Nat.pow_le_pow_right (by norm_num) (List.length_take_le _ _))
    have hnext : a >>> w < 2 ^ (filled + 8 * k - w) := by
      rw [Nat.shiftRight_eq_div_pow]
      exact Nat.div_lt_of_lt_mul (by rwa [← pow_add, show w + (filled + 8 * k - w) = filled + 8 * k by omega])
    have hpow : 2 ^ w ≤ 2 ^ 30 := Nat.pow_le_pow_right Nat.two_pos hw
    have hmod := Nat.mod_lt a (Nat.two_pow_pos w)
    have hsmall : |(Int32.ofNat (a % 2 ^ w)).toInt| ≤ 1073741824 := by
      rw [Int32.toInt_ofNat_of_lt (by omega)]
      exact abs_le.2 ⟨by omega, by omega⟩
    rw [hk, ha] at hread
    have hstep : checkedReadNumber form bytes l.length (⟨pos, acc, filled⟩, (ofList l : Poly .plain).coeffs) =
        .ok (⟨pos + k, a >>> w, filled + 8 * k - w⟩,
          (ofList (l ++ [form.code (.ofNat (a % 2 ^ w))]) : Poly .plain).coeffs) := by
      rw [checkedReadNumber, bind_of_eq hread]
      simp only
      rw [bind_of_eq (form.checkedCode_eq _ hsmall), bind_of_eq (set_eq _ (by omega) _),
        set_ofList (by omega)]
      rfl
    obtain ⟨u, hu⟩ := @ih (pos + k) (a >>> w) (filled + 8 * k - w)
      (l ++ [form.code (.ofNat (a % 2 ^ w))]) (by simp; omega) hnext (by omega) (by omega) (by omega)
    refine ⟨u, ?_⟩
    rw [List.length_append, List.length_singleton] at hu
    rw [loopFrom, bind_of_eq hstep, hu, unpackFrom]
    simp only [hk, ha, List.map_cons, List.append_assoc, List.singleton_append, List.drop_drop]

/-- **Unpacking does not fault** on a buffer of at least the packed length. -/
theorem checkedUnpack_eq (hw : w ≤ 30) {bytes : Bytes} (hbytes : 32 * w ≤ bytes.length) :
    checkedUnpack form bytes = .ok (unpack form.toPackedForm bytes) := by
  obtain ⟨buffer, hfront⟩ : ∃ buffer, bytes.take (32 * w) = buffer := ⟨_, rfl⟩
  have hbuffer : buffer.length = 32 * w := by rw [← hfront, List.length_take_of_le hbytes]
  have hslice : slice bytes 0 (32 * w) = .ok buffer := by
    rw [slice_eq (Nat.zero_le _) hbytes, List.drop_zero, Nat.sub_zero, hfront]
  obtain ⟨u, hu⟩ := @loopFrom_readNumber_eq w form hw buffer 256 0 0 0 [] (by simp) Nat.one_pos
    (by norm_num) (Nat.zero_le _) (by omega)
  have hzero : (ofList [] : Poly .plain).coeffs = .replicate 256 0 :=
    Vector.ext fun i hi => (number_ofList [] ⟨i, hi⟩).trans (Vector.getElem_replicate hi).symm
  have hloop : loop (checkedReadNumber form buffer) 256 (⟨0, 0, 0⟩, .replicate 256 0) =
      .ok (u, (unpack form.toPackedForm buffer).coeffs) := by
    rw [unpack, BitStream.unpack, Nat.one_shiftLeft, ← hzero]
    exact hu
  rw [checkedUnpack, bind_of_eq hslice, bind_of_eq hloop, ← unpack_take _ bytes, hfront]
  rfl

end Poly

end LatticeSignature
