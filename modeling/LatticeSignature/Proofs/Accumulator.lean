import LatticeSignature.Proofs.Checked.BitStream

/-!
# The accumulator of a bit stream

Packing and unpacking turn by turn, as their inner loops go: in each turn one number or one byte
enters or leaves the accumulator. What it holds in between is a window of the stream, from the bits
that have left to those that have entered, which two positions determine.

* `window`: consecutive bits of a number.
* `Packing.turn`, `Unpacking.turn`: one turn, checked.
* `Packing.Inv.turn`, `Unpacking.Inv.turn`: every turn moves one end of the window; `Packing.run_inv`
  and `Unpacking.run_inv` follow any number of turns.
* `IsPacked`, `IsUnpacked`: the positions of all bits.
* **`bit_stream_layout`**: both directions lay out the bits in this way, turn by turn inside the buffer.
-/

namespace LatticeSignature.BitStream

open Checked

/-! ## Windows -/

/-- The `len` bits of a number from bit `start` on. -/
def window (N start len : ℕ) : ℕ := N >>> start % 2 ^ len

section Window

variable (N start len k : ℕ)

theorem testBit_window (b : ℕ) :
    (window N start len).testBit b = (decide (b < len) && N.testBit (start + b)) := by
  rw [window, Nat.testBit_mod_two_pow, Nat.testBit_shiftRight]

theorem window_lt : window N start len < 2 ^ len := Nat.mod_lt _ (Nat.two_pow_pos len)

theorem window_eq_div_mod : window N start len = N / 2 ^ start % 2 ^ len := by
  rw [window, Nat.shiftRight_eq_div_pow]

theorem window_zero : window N start 0 = 0 := Nat.mod_one _

theorem window_or_shiftLeft :
    window N start len ||| window N (start + len) k <<< len = window N start (len + k) := by
  refine Nat.eq_of_testBit_eq fun b => ?_
  rw [Nat.testBit_or, Nat.testBit_shiftLeft, testBit_window, testBit_window, testBit_window]
  by_cases hb : b < len
  · simp [hb, show b < len + k by omega]
  · have hpos : start + len + (b - len) = start + b := by omega
    have hlt : b - len < k ↔ b < len + k := by omega
    simp [hb, not_lt.1 hb, hpos, hlt]

theorem window_shiftRight : window N start (len + k) >>> k = window N (start + k) len := by
  refine Nat.eq_of_testBit_eq fun b => ?_
  rw [Nat.testBit_shiftRight, testBit_window, testBit_window, Nat.add_assoc]
  simp [Nat.add_comm len k]

variable {len k} in
theorem window_mod (h : k ≤ len) : window N start len % 2 ^ k = window N start k :=
  Nat.mod_mod_of_dvd _ (Nat.pow_dvd_pow 2 h)

end Window

theorem toNat_getElem_eq_window (bytes : Bytes) (p : ℕ) (h : p < bytes.length) :
    bytes[p].toNat = window (ofBytes bytes) (8 * p) 8 := by
  refine Nat.eq_of_testBit_eq fun b => ?_
  rw [testBit_window, testBit_ofBytes]
  by_cases hb : b < 8
  · rw [show (8 * p + b) / 8 = p by omega, show (8 * p + b) % 8 = b by omega, decide_eq_true hb,
      List.getD_eq_getElem _ _ h, Bool.true_and]
  · rw [decide_eq_false hb, Bool.false_and]
    exact Nat.testBit_lt_two_pow
      (bytes[p].toNat_lt.trans_le (Nat.pow_le_pow_right (by norm_num) (not_lt.1 hb)))

/-! ## Packing -/

/-- A packer, and how many of the numbers it has taken. -/
structure Packing extends Packer where
  taken : ℕ

/-- Writes a byte if one is full, else takes a number. -/
def Packing.turn (w : ℕ) (values : Vector UInt32 256) (s : Packing) : Checked Packing :=
  if 8 ≤ s.filled then do
    let p ← s.toPacker.writeByte
    return ⟨p, s.taken⟩
  else if s.taken < 256 then do
    let v ← get values s.taken
    let acc ← unsigned 64 (s.acc ||| (v.toNat % 2 ^ w) <<< s.filled)
    return ⟨⟨s.out, s.pos, acc, s.filled + w⟩, s.taken + 1⟩
  else return s

/-- The first `n` turns on a buffer. -/
def Packing.run (w : ℕ) (values : Vector UInt32 256) (buffer : Bytes) (n : ℕ) : Checked Packing :=
  loop (fun _ => turn w values) n ⟨⟨buffer, 0, 0, 0⟩, 0⟩

section Packing

variable {w n : ℕ} {values : Vector UInt32 256} {buffer : Bytes} {s : Packing}

/-- The packed numbers. -/
abbrev packed (w : ℕ) (values : Vector UInt32 256) : Bytes := pack w (values.toList.map UInt32.toNat)

/-- All of them as one number. -/
abbrev stream (w : ℕ) (values : Vector UInt32 256) : ℕ := number w (values.toList.map UInt32.toNat)

theorem length_packed (w : ℕ) (values : Vector UInt32 256) : (packed w values).length = 32 * w := by
  rw [length_pack, List.length_map, Vector.length_toList]
  omega

theorem getElem_packed {p : ℕ} (hp : p < (packed w values).length) :
    (packed w values)[p] = (window (stream w values) (8 * p) 8).toUInt8 := by
  rw [window_eq_div_mod, pow_mul, show (2 : ℕ) ^ 8 = 256 from rfl, toUInt8_mod]
  simp only [packed, pack_eq, getElem_lowBytes]

theorem toNat_mod_eq_window {i : ℕ} (hi : i < 256) :
    values[i].toNat % 2 ^ w = window (stream w values) (w * i) w := by
  rw [window_eq_div_mod, number_div_mod w _ i (by simpa using hi)]
  simp

/-- What is known after `n` turns: the accumulator holds the bits of the stream between the bytes
written and the numbers taken. -/
structure Packing.Inv (w : ℕ) (values : Vector UInt32 256) (buffer : Bytes) (n : ℕ) (s : Packing) :
    Prop where
  taken_le : s.taken ≤ 256
  bits : w * s.taken = 8 * s.pos + s.filled
  filled_lt : s.filled < 8 + w
  turns : s.taken + s.pos = min n (256 + 32 * w)
  acc_eq : s.acc = window (stream w values) (8 * s.pos) s.filled
  out_eq : s.out = (packed w values).take s.pos ++ buffer.drop s.pos

namespace Packing

theorem Inv.pos_le (h : Inv w values buffer n s) : s.pos ≤ 32 * w := by
  have hle : w * s.taken ≤ w * 256 := Nat.mul_le_mul_left w h.taken_le
  have hbits := h.bits
  omega

theorem Inv.writeByte (hbuffer : 32 * w ≤ buffer.length) (h : Inv w values buffer n s)
    (hfull : 8 ≤ s.filled) :
    ∃ p, s.toPacker.writeByte = .ok p ∧ Inv w values buffer (n + 1) ⟨p, s.taken⟩ := by
  obtain ⟨htaken, hbits, hfilled, hturns, hacc, hout⟩ := h
  have hle : w * s.taken ≤ w * 256 := Nat.mul_le_mul_left w htaken
  have hpacked : s.pos < (packed w values).length := by rw [length_packed]; omega
  have hbyte : s.acc.toUInt8 = (packed w values)[s.pos] := by
    rw [getElem_packed, hacc, ← toUInt8_mod, show 256 = 2 ^ 8 from rfl, window_mod _ _ hfull]
  have hstore : store s.out s.pos s.acc.toUInt8 =
      .ok ((packed w values).take (s.pos + 1) ++ buffer.drop (s.pos + 1)) := by
    have hwritten : ((packed w values).take s.pos).length = s.pos := List.length_take_of_le hpacked.le
    have hput := @store_append _ ((packed w values).take s.pos) (buffer.drop (s.pos + 1)) buffer[s.pos]
      s.acc.toUInt8
    rw [hwritten] at hput
    rw [hout, List.drop_eq_getElem_cons (by omega), hput, hbyte, List.take_succ_eq_append_getElem hpacked,
      List.append_assoc]
    rfl
  refine ⟨_, by rw [Packer.writeByte, bind_of_eq hstore, bind_of_eq (minus_eq hfull)]; rfl, ?_⟩
  refine ⟨htaken, ?_, ?_, ?_, ?_, rfl⟩ <;> simp only
  · omega
  · omega
  · omega
  · obtain ⟨k, hk⟩ := Nat.exists_eq_add_of_le' hfull
    rw [hacc, hk, window_shiftRight, Nat.add_sub_cancel, Nat.mul_succ]

/-- **Every turn keeps the invariant.** -/
theorem Inv.turn (hw : w ≤ 31) (hbuffer : 32 * w ≤ buffer.length) (h : Inv w values buffer n s) :
    ∃ t, Packing.turn w values s = .ok t ∧ Inv w values buffer (n + 1) t := by
  unfold Packing.turn
  split
  · next hfull =>
    obtain ⟨p, hp, hinv⟩ := h.writeByte hbuffer hfull
    exact ⟨_, by rw [bind_of_eq hp]; rfl, hinv⟩
  next hfull =>
  have hpos := h.pos_le
  split
  · next hmore =>
    obtain ⟨htaken, hbits, hfilled, hturns, hacc, hout⟩ := h
    have hput : s.acc ||| (values[s.taken].toNat % 2 ^ w) <<< s.filled =
        window (stream w values) (8 * s.pos) (s.filled + w) := by
      rw [hacc, toNat_mod_eq_window hmore, hbits, window_or_shiftLeft]
    have hfits : unsigned 64 (s.acc ||| (values[s.taken].toNat % 2 ^ w) <<< s.filled) =
        .ok (window (stream w values) (8 * s.pos) (s.filled + w)) := by
      rw [hput]
      exact fits_of_lt (window_lt _ _ _) (by omega)
    refine ⟨_, by rw [bind_of_eq (get_eq values hmore), bind_of_eq hfits]; rfl, ?_⟩
    refine ⟨?_, ?_, ?_, ?_, rfl, hout⟩ <;> simp only
    · omega
    · rw [Nat.mul_succ, hbits, Nat.add_assoc]
    · omega
    · omega
  · next hdone =>
    have htaken := h.taken_le
    have hbits := h.bits
    have hturns := h.turns
    have hall : s.taken = 256 := by omega
    rw [hall] at hbits
    exact ⟨s, rfl, { h with turns := by omega }⟩

theorem run_inv (hw : w ≤ 31) (values : Vector UInt32 256) (hbuffer : 32 * w ≤ buffer.length) (n : ℕ) :
    ∃ s, run w values buffer n = .ok s ∧ Inv w values buffer n s := by
  refine exists_loop_eq (fun _ _ h => h.turn hw hbuffer) ?_ n
  refine ⟨Nat.zero_le _, rfl, by simp only; omega, rfl, (window_zero _ _).symm, ?_⟩
  rw [List.take_zero, List.drop_zero, List.nil_append]

theorem Inv.finished (h : Inv w values buffer (256 + 32 * w) s) :
    s.taken = 256 ∧ s.pos = 32 * w ∧ s.filled = 0 := by
  have hpos := h.pos_le
  obtain ⟨htaken, hbits, -, hturns, -, -⟩ := h
  have hall : s.taken = 256 := by omega
  rw [hall] at hbits
  omega

end Packing

end Packing

/-! ## Unpacking -/

/-- An unpacker, the positions that it has read, and the numbers that it has delivered. -/
structure Unpacking extends Unpacker where
  reads : List ℕ
  delivered : List Int32

/-- Reads a byte if too few bits are there for a number, else delivers one. -/
def Unpacking.turn (w : ℕ) (bytes : Bytes) (s : Unpacking) : Checked Unpacking :=
  if s.delivered.length < 256 then
    if s.filled < w then do
      let u ← s.toUnpacker.readByte bytes
      return ⟨u, s.reads ++ [s.pos], s.delivered⟩
    else do
      let v ← word (s.acc % 2 ^ w : ℕ)
      let filled ← minus s.filled w
      return ⟨⟨s.pos, s.acc >>> w, filled⟩, s.reads, s.delivered ++ [v]⟩
  else return s

/-- The first `n` turns on a byte string. -/
def Unpacking.run (w : ℕ) (bytes : Bytes) (n : ℕ) : Checked Unpacking :=
  loop (fun _ => turn w bytes) n ⟨⟨0, 0, 0⟩, [], []⟩

section Unpacking

variable {w n : ℕ} {bytes : Bytes} {s : Unpacking}

theorem unpack_eq_map_window (w count : ℕ) (bytes : Bytes) :
    unpack w count bytes = (List.range count).map fun i => window (ofBytes bytes) (w * i) w := by
  rw [unpack_eq]
  exact List.map_congr_left fun i _ => (window_eq_div_mod _ _ _).symm

/-- What is known after `n` turns: the accumulator holds the bits of the stream between the numbers
delivered and the bytes read. -/
structure Unpacking.Inv (w : ℕ) (bytes : Bytes) (n : ℕ) (s : Unpacking) : Prop where
  length_le : s.delivered.length ≤ 256
  pos_le : s.pos ≤ 32 * w
  bits : 8 * s.pos = w * s.delivered.length + s.filled
  filled_lt : s.filled < 8 + w
  turns : s.delivered.length + s.pos = min n (256 + 32 * w)
  acc_eq : s.acc = window (ofBytes bytes) (w * s.delivered.length) s.filled
  reads_eq : s.reads = List.range s.pos
  delivered_eq : s.delivered = (unpack w s.delivered.length bytes).map Int32.ofNat

namespace Unpacking

theorem Inv.readByte (hw : w ≤ 31) (hbytes : 32 * w ≤ bytes.length) (h : Inv w bytes n s)
    (hmore : s.delivered.length < 256) (hfew : s.filled < w) :
    ∃ u, s.toUnpacker.readByte bytes = .ok u ∧
      Inv w bytes (n + 1) ⟨u, s.reads ++ [s.pos], s.delivered⟩ := by
  obtain ⟨hlength, hpos, hbits, hfilled, hturns, hacc, hreads, hdelivered⟩ := h
  have hle : w * (s.delivered.length + 1) ≤ w * 256 := Nat.mul_le_mul_left w hmore
  rw [Nat.mul_succ] at hle
  have hlt : s.pos < bytes.length := by omega
  have hput : s.acc ||| bytes[s.pos].toNat <<< s.filled =
      window (ofBytes bytes) (w * s.delivered.length) (s.filled + 8) := by
    rw [hacc, toNat_getElem_eq_window, hbits, window_or_shiftLeft]
  have hfits : unsigned 64 (s.acc ||| bytes[s.pos].toNat <<< s.filled) =
      .ok (window (ofBytes bytes) (w * s.delivered.length) (s.filled + 8)) := by
    rw [hput]
    exact fits_of_lt (window_lt _ _ _) (by omega)
  refine ⟨_, by rw [Unpacker.readByte, bind_of_eq (elem_eq hlt), bind_of_eq hfits]; rfl, ?_⟩
  refine ⟨hlength, ?_, ?_, ?_, ?_, rfl, ?_, hdelivered⟩ <;> simp only
  · omega
  · omega
  · omega
  · omega
  · rw [hreads, List.range_succ]

theorem Inv.deliver (hw : w ≤ 31) (h : Inv w bytes n s) (hmore : s.delivered.length < 256)
    (hfull : w ≤ s.filled) :
    word (s.acc % 2 ^ w : ℕ) = .ok (Int32.ofNat (s.acc % 2 ^ w)) ∧
      Inv w bytes (n + 1) ⟨⟨s.pos, s.acc >>> w, s.filled - w⟩, s.reads,
        s.delivered ++ [Int32.ofNat (s.acc % 2 ^ w)]⟩ := by
  have hpos := h.pos_le
  obtain ⟨hlength, -, hbits, hfilled, hturns, hacc, hreads, hdelivered⟩ := h
  have hpow : 2 ^ w ≤ 2 ^ 31 := Nat.pow_le_pow_right Nat.two_pos hw
  have hmod := Nat.mod_lt s.acc (Nat.two_pow_pos w)
  refine ⟨word_eq (Int32.toInt_ofNat_of_lt (hmod.trans_le hpow)), ?_⟩
  refine ⟨?_, hpos, ?_, ?_, ?_, ?_, hreads, ?_⟩ <;>
    simp only [List.length_append, List.length_singleton]
  · omega
  · rw [Nat.mul_succ]
    omega
  · omega
  · omega
  · obtain ⟨k, hk⟩ := Nat.exists_eq_add_of_le' hfull
    rw [hacc, hk, window_shiftRight, Nat.add_sub_cancel, Nat.mul_succ]
  · rw [unpack_eq_map_window, List.range_succ, List.map_append, List.map_append, ← unpack_eq_map_window,
      ← hdelivered, hacc, window_mod _ _ hfull]
    rfl

/-- **Every turn keeps the invariant.** -/
theorem Inv.turn (hw : w ≤ 31) (hbytes : 32 * w ≤ bytes.length) (h : Inv w bytes n s) :
    ∃ t, Unpacking.turn w bytes s = .ok t ∧ Inv w bytes (n + 1) t := by
  unfold Unpacking.turn
  split
  · next hmore =>
    split
    · next hfew =>
      obtain ⟨u, hu, hinv⟩ := h.readByte hw hbytes hmore hfew
      exact ⟨_, by rw [bind_of_eq hu]; rfl, hinv⟩
    · next hfew =>
      obtain ⟨hword, hinv⟩ := h.deliver hw hmore (not_lt.1 hfew)
      exact ⟨_, by rw [bind_of_eq hword, bind_of_eq (minus_eq (not_lt.1 hfew))]; rfl, hinv⟩
  · next hdone =>
    have hlength := h.length_le
    have hpos := h.pos_le
    have hbits := h.bits
    have hturns := h.turns
    have hall : s.delivered.length = 256 := by omega
    rw [hall] at hbits
    exact ⟨s, rfl, { h with turns := by omega }⟩

theorem run_inv (hw : w ≤ 31) (hbytes : 32 * w ≤ bytes.length) (n : ℕ) :
    ∃ s, run w bytes n = .ok s ∧ Inv w bytes n s := by
  refine exists_loop_eq (fun _ _ h => h.turn hw hbytes) ?_ n
  exact ⟨Nat.zero_le _, Nat.zero_le _, rfl, by simp only; omega, rfl, (window_zero _ _).symm, rfl, rfl⟩

theorem Inv.finished (h : Inv w bytes (256 + 32 * w) s) :
    s.delivered.length = 256 ∧ s.pos = 32 * w ∧ s.filled = 0 := by
  obtain ⟨hlength, hpos, hbits, -, hturns, -, -, -⟩ := h
  have hall : s.delivered.length = 256 := by omega
  rw [hall] at hbits
  omega

end Unpacking

end Unpacking

/-! ## Layout -/

/-- Bit `q` of byte `p` is bit `(8 p + q) % w` of number `(8 p + q) / w`. -/
structure IsPacked (w : ℕ) (values : Vector UInt32 256) (bytes : Bytes) : Prop where
  length_eq : bytes.length = 32 * w
  testBit_eq : ∀ p < 32 * w, ∀ q < 8, ∃ h : (8 * p + q) / w < 256,
    (bytes.getD p 0).toNat.testBit q =
      (values.get ⟨(8 * p + q) / w, h⟩).toNat.testBit ((8 * p + q) % w)

/-- Number `i` has `w` bits, and bit `j` of it is bit `i w + j` of the bytes. -/
structure IsUnpacked (w : ℕ) (bytes : Bytes) (numbers : List ℕ) : Prop where
  length_eq : numbers.length = 256
  testBit_eq : ∀ i < 256, ∀ j, (numbers.getD i 0).testBit j =
    (decide (j < w) && (bytes.getD ((i * w + j) / 8) 0).toNat.testBit ((i * w + j) % 8))

theorem isPacked_packed {w : ℕ} (hw : 0 < w) (values : Vector UInt32 256) :
    IsPacked w values (packed w values) := by
  refine ⟨length_packed w values, fun p hp q hq => ?_⟩
  have hlt : (8 * p + q) / w < 256 := by
    rw [Nat.div_lt_iff_lt_mul hw]
    omega
  refine ⟨hlt, ?_⟩
  have hlength : p < (packed w values).length := by rwa [length_packed]
  rw [List.getD_eq_getElem _ _ hlength, getElem_packed, Nat.toUInt8_eq,
    UInt8.toNat_ofNat_of_lt' (window_lt _ _ _), testBit_window, decide_eq_true hq, Bool.true_and, stream,
    testBit_number hw, List.getD_eq_getElem _ _ (by simpa using hlt), List.getElem_map, Vector.getElem_toList]
  rfl

theorem isPacked_bytes_pack {w : ℕ} (hw : 0 < w) (form : PackedForm w) (p : Poly .plain) :
    IsPacked w (p.coeffs.map fun c => (form.code c).toUInt32) (p.pack form).bytes := by
  have h := isPacked_packed hw (p.coeffs.map fun c => (form.code c).toUInt32)
  rwa [packed, Vector.toList_map, List.map_map] at h

theorem isUnpacked_unpack (w : ℕ) (bytes : Bytes) : IsUnpacked w bytes (unpack w 256 bytes) := by
  refine ⟨length_unpack w 256 bytes, fun i hi j => ?_⟩
  rw [List.getD_eq_getElem _ _ (by simpa using hi)]
  simp only [unpack_eq_map_window, List.getElem_map, List.getElem_range]
  rw [testBit_window, testBit_ofBytes, Nat.mul_comm w i]

/-- **The layout of a bit stream**, for numbers of up to 31 bits. Packing writes the low bits of 256
numbers to the front of a buffer and leaves the rest of it; unpacking reads every byte once, in order.
No turn of either goes beyond the buffer, or leaves more than the stated number of bits waiting. -/
theorem bit_stream_layout {w : ℕ} (hw : 0 < w) (hw' : w ≤ 31) :
    (∀ (values : Vector UInt32 256) (buffer : Bytes), 32 * w ≤ buffer.length →
      IsPacked w values (packed w values) ∧
      (∀ n, ∃ s, Packing.run w values buffer n = .ok s ∧
        s.acc < 2 ^ s.filled ∧ s.filled ≤ 7 + max w 8) ∧
      ∃ s, Packing.run w values buffer (256 + 32 * w) = .ok s ∧ s.taken = 256 ∧ s.filled = 0 ∧
        s.pos = 32 * w ∧ s.out = packed w values ++ buffer.drop (32 * w)) ∧
    ∀ bytes : Bytes, bytes.length = 32 * w →
      IsUnpacked w bytes (unpack w 256 bytes) ∧
      (∀ n, ∃ s, Unpacking.run w bytes n = .ok s ∧
        s.acc < 2 ^ s.filled ∧ s.filled ≤ 7 + max w 8) ∧
      ∃ s, Unpacking.run w bytes (256 + 32 * w) = .ok s ∧ s.filled = 0 ∧
        s.reads = List.range (32 * w) ∧ s.delivered = (unpack w 256 bytes).map Int32.ofNat := by
  constructor
  · intro values buffer hbuffer
    refine ⟨isPacked_packed hw values, fun n => ?_, ?_⟩
    · obtain ⟨s, hs, hinv⟩ := Packing.run_inv hw' values hbuffer n
      have hfilled := hinv.filled_lt
      exact ⟨s, hs, hinv.acc_eq ▸ window_lt _ _ _, by omega⟩
    · obtain ⟨s, hs, hinv⟩ := Packing.run_inv hw' values hbuffer (256 + 32 * w)
      obtain ⟨htaken, hpos, hfilled⟩ := hinv.finished
      refine ⟨s, hs, htaken, hfilled, hpos, ?_⟩
      rw [hinv.out_eq, hpos, List.take_of_length_le (length_packed w values).le]
  · intro bytes hbytes
    refine ⟨isUnpacked_unpack w bytes, fun n => ?_, ?_⟩
    · obtain ⟨s, hs, hinv⟩ := Unpacking.run_inv hw' hbytes.ge n
      have hfilled := hinv.filled_lt
      exact ⟨s, hs, hinv.acc_eq ▸ window_lt _ _ _, by omega⟩
    · obtain ⟨s, hs, hinv⟩ := Unpacking.run_inv hw' hbytes.ge (256 + 32 * w)
      obtain ⟨hlength, hpos, hfilled⟩ := hinv.finished
      refine ⟨s, hs, hfilled, ?_, ?_⟩
      · rw [hinv.reads_eq, hpos]
      · rw [hinv.delivered_eq, hlength]

/-- Numbers of 13 bits, given with ones above. -/
theorem bit_stream_layout_thirteen :
    let values : Vector UInt32 256 := .replicate 256 4294967295
    let buffer : Bytes := .replicate 420 0
    let bytes : Bytes := .replicate 416 170
    IsPacked 13 values (packed 13 values) ∧
      (∀ n, ∃ s, Packing.run 13 values buffer n = .ok s ∧ s.acc < 2 ^ s.filled ∧ s.filled ≤ 20) ∧
      ∃ s, Unpacking.run 13 bytes 672 = .ok s ∧ s.filled = 0 ∧ s.reads = List.range 416 ∧
        s.delivered = (unpack 13 256 bytes).map Int32.ofNat := by
  intro values buffer bytes
  obtain ⟨hpack, hunpack⟩ := @bit_stream_layout 13 (by norm_num) (by norm_num)
  obtain ⟨hlayout, hruns, -⟩ := hpack values buffer (by rw [List.length_replicate]; norm_num)
  exact ⟨hlayout, hruns, (hunpack bytes List.length_replicate).2.2⟩

end LatticeSignature.BitStream
