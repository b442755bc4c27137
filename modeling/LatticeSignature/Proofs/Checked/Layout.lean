import LatticeSignature.Proofs.Checked.BitStream
import LatticeSignature.Proofs.Checked.Hint
import LatticeSignature.Proofs.Layout

/-!
# Checked layouts

Keys and signatures are written through a writer and read through a position, each of which only
moves on. The parts of a layout fill its buffer exactly, so that neither leaves it.

* `Writer.Appends`: a step writes some data behind what has been written.
* **`PublicParts.checkedEncode_eq`**, **`SecretParts.checkedEncode_eq`**,
  **`SignatureParts.checkedEncode_eq`**: writing.
* **`PublicParts.checkedDecode_eq`**, **`SecretParts.checkedDecode_eq`**,
  **`SignatureParts.checkedDecode_eq`**: reading, whatever the bytes are.
-/

namespace LatticeSignature

open Checked

/-! ## Writing -/

/-- A buffer that is filled from the front on. -/
structure Writer where
  buffer : Bytes
  pos : ℕ

namespace Writer

/-- Lets `fill` write the next `len` bytes. -/
def next (len : ℕ) (fill : Bytes → Checked Bytes) (w : Writer) : Checked Writer := do
  let part ← slice w.buffer w.pos (w.pos + len)
  let part ← fill part
  let buffer ← splice w.buffer w.pos part
  return ⟨buffer, w.pos + len⟩

/-- Writes given bytes over as many others. -/
def copy (data part : Bytes) : Checked Bytes :=
  if part.length = data.length then .ok data else .error .outOfBounds

def bytes (data : Bytes) : Writer → Checked Writer := next data.length (copy data)

def vector {width n : ℕ} (form : CheckedForm width) (v : PolyVec .plain n) (w : Writer) : Checked Writer :=
  v.toList.foldlM (fun w p => w.next (32 * width) (p.checkedPack form)) w

/-- What steps from the front on leave of a buffer. -/
def run (f : Writer → Checked Writer) (buffer : Bytes) : Checked Bytes := do
  let w ← f ⟨buffer, 0⟩
  return w.buffer

/-- A step that writes `data` behind what has been written, if there is room. -/
def Appends (f : Writer → Checked Writer) (data : Bytes) : Prop :=
  ∀ written room : Bytes, data.length ≤ room.length →
    f ⟨written ++ room, written.length⟩ =
      .ok ⟨written ++ data ++ room.drop data.length, (written ++ data).length⟩

variable {f g : Writer → Checked Writer} {data data' : Bytes}

theorem Appends.next {len : ℕ} {fill : Bytes → Checked Bytes} (hlen : data.length = len)
    (h : ∀ part : Bytes, part.length = len → fill part = .ok data) : Appends (next len fill) data := by
  intro written room hroom
  rw [hlen] at hroom ⊢
  have htake : (room.take len).length = len := List.length_take_of_le hroom
  have hbuffer : written ++ room = written ++ room.take len ++ room.drop len := by
    rw [List.append_assoc, List.take_append_drop]
  unfold Writer.next
  simp only
  rw [hbuffer, bind_of_eq (slice_append (by rw [htake])), bind_of_eq (h _ htake),
    bind_of_eq (splice_append (by rw [hlen, htake])), List.length_append, hlen]
  rfl

theorem appends_bytes (data : Bytes) : Appends (bytes data) data :=
  .next rfl fun _ h => if_pos h

theorem Appends.bind (hf : Appends f data) (hg : Appends g data') :
    Appends (fun w => f w >>= g) (data ++ data') := by
  intro written room hroom
  rw [List.length_append] at hroom
  simp only
  rw [bind_of_eq (hf _ _ (by omega)), hg _ _ (by rw [List.length_drop]; omega), List.drop_drop,
    List.append_assoc written, @List.length_append _ data]

/-- **Data that fills a buffer** is written without a fault. -/
theorem Appends.run {buffer : Bytes} (hf : Appends f data) (h : buffer.length = data.length) :
    run f buffer = .ok data := by
  have hrun : f ⟨buffer, 0⟩ = _ := hf [] buffer h.ge
  rw [Writer.run, bind_of_eq hrun, ← h, List.drop_length, List.append_nil]
  rfl

theorem appends_vector {width n : ℕ} (hwidth : width ≤ 32) (form : CheckedForm width)
    {v : PolyVec .plain n} (hv : v.Within (-1073741824) 1073741824) :
    Appends (vector form v) (PolyVec.pack form.toPackedForm v).bytes := by
  have hlist : ∀ l : List (Poly .plain), (∀ p ∈ l, p.Within (-1073741824) 1073741824) →
      Appends (fun w => l.foldlM (fun w p => w.next (32 * width) (p.checkedPack form)) w)
        (l.flatMap fun p => (p.pack form.toPackedForm).bytes) := by
    intro l hl
    induction l with
    | nil => exact fun written room _ => by simp [pure, Except.pure]
    | cons p l ih =>
      rw [List.forall_mem_cons] at hl
      have hp : Appends (Writer.next (32 * width) (p.checkedPack form)) (p.pack form.toPackedForm).bytes :=
        .next (p.pack form.toPackedForm).length_eq fun part hpart => Poly.checkedPack_eq hwidth hl.1 hpart
      simp only [List.foldlM_cons]
      exact hp.bind (ih hl.2)
  have hbytes : (PolyVec.pack form.toPackedForm v).bytes =
      v.toList.flatMap fun p => (p.pack form.toPackedForm).bytes := by
    change (Vector.map _ v).toList.flatMap _ = _
    rw [Vector.toList_map, List.flatMap_map]
  rw [hbytes]
  refine hlist v.toList fun p hp => ?_
  obtain ⟨i, rfl⟩ := exists_get hp
  exact hv i

end Writer

/-! ## Reading -/

/-- A byte string of `n` bytes. -/
def sized (n : ℕ) (b : Bytes) : Checked (ByteString n) :=
  if h : b.length = n then return ⟨b, h⟩ else .error .outOfBounds

/-- The next `len` bytes, and the position behind them. -/
def readBytes (b : Bytes) (len pos : ℕ) : Checked (ByteString len × ℕ) := do
  let part ← slice b pos (pos + len)
  let s ← sized len part
  return (s, pos + len)

/-- The next `n` polynomials, and the position behind them. -/
def readVector {width : ℕ} (form : CheckedForm width) (n : ℕ) (b : Bytes) (pos : ℕ) :
    Checked (PolyVec .plain n × ℕ) := do
  let v ← tabulate fun i => do
    let start := pos + i.val * (32 * width)
    let part ← slice b start (start + 32 * width)
    Poly.checkedUnpack form part
  return (v, pos + n * (32 * width))

theorem sized_eq {n : ℕ} (b : ByteString n) : sized n b.bytes = .ok b := dif_pos b.length_eq

theorem readBytes_eq {n len pos stop : ℕ} (b : ByteString n) (hstop : pos + len = stop)
    (h : pos + len ≤ n) : readBytes b.bytes len pos = .ok (b.slice pos len h, stop) := by
  subst hstop
  have hpart : slice b.bytes pos (pos + len) = .ok (b.slice pos len h).bytes := by
    rw [slice_eq (Nat.le_add_right _ _) (by rwa [b.length_eq]), Nat.add_sub_cancel_left]
    rfl
  rw [readBytes, bind_of_eq hpart, bind_of_eq (sized_eq _)]
  rfl

theorem readVector_eq {width n pos stop : ℕ} (hwidth : width ≤ 30) (form : CheckedForm width) {b : Bytes}
    (hstop : pos + n * (32 * width) = stop) (h : stop ≤ b.length) :
    readVector form n b pos = .ok (PolyVec.unpack form.toPackedForm n pos b, stop) := by
  subst hstop
  have hentry : ∀ i : Fin n, (do
      let start := pos + i.val * (32 * width)
      let part ← slice b start (start + 32 * width)
      Poly.checkedUnpack form part) =
        .ok (Poly.unpack form.toPackedForm ((b.drop (pos + i.val * (32 * width))).take (32 * width))) := by
    intro i
    have hend : pos + i.val * (32 * width) + 32 * width ≤ b.length := by
      have : (i.val + 1) * (32 * width) ≤ n * (32 * width) := Nat.mul_le_mul_right _ i.isLt
      rw [Nat.succ_mul] at this
      omega
    simp only
    rw [bind_of_eq (slice_eq (Nat.le_add_right _ _) hend), Nat.add_sub_cancel_left]
    exact Poly.checkedUnpack_eq hwidth (by rw [List.length_take, List.length_drop]; omega)
  rw [readVector, bind_of_eq (tabulate_eq hentry)]
  rfl

/-! ## Keys and signatures -/

namespace PublicParts

def write (p : PublicParts) (w : Writer) : Checked Writer := do
  let w ← w.bytes p.rho.bytes
  w.vector .t1 p.t1

def checkedEncode (p : PublicParts) : Bytes → Checked Bytes := Writer.run p.write

def checkedDecode (b : Bytes) : Checked PublicParts := do
  let (rho, pos) ← readBytes b 32 0
  let (t1, _) ← readVector .t1 8 b pos
  return ⟨rho, t1⟩

theorem checkedEncode_eq (p : PublicParts) (hp : p.t1.Within (-1073741824) 1073741824) {buffer : Bytes}
    (h : buffer.length = 2592) : p.checkedEncode buffer = .ok p.encode.bytes :=
  ((Writer.appends_bytes _).bind (Writer.appends_vector (by norm_num) .t1 hp)).run
    (h.trans p.encode.length_eq.symm)

theorem checkedDecode_eq (b : ByteString 2592) : checkedDecode b.bytes = .ok (decode b) := by
  rw [checkedDecode, bind_of_eq (readBytes_eq b rfl (by norm_num))]
  simp only
  rw [bind_of_eq (readVector_eq (by norm_num) .t1 rfl (by rw [b.length_eq]))]
  rfl

end PublicParts

namespace SecretParts

variable {tr : ℕ}

def write (p : SecretParts tr) (w : Writer) : Checked Writer := do
  let w ← w.bytes p.rho.bytes
  let w ← w.bytes p.key.bytes
  let w ← w.bytes p.tr.bytes
  let w ← w.vector .eta p.s1
  let w ← w.vector .eta p.s2
  w.vector .t0 p.t0

def checkedEncode (p : SecretParts tr) : Bytes → Checked Bytes := Writer.run p.write

def checkedDecode (tr : ℕ) (b : Bytes) : Checked (SecretParts tr) := do
  let (rho, pos) ← readBytes b 32 0
  let (key, pos) ← readBytes b 32 pos
  let (trBytes, pos) ← readBytes b tr pos
  let (s1, pos) ← readVector .eta 7 b pos
  let (s2, pos) ← readVector .eta 8 b pos
  let (t0, _) ← readVector .t0 8 b pos
  return ⟨rho, key, trBytes, s1, s2, t0⟩

theorem checkedEncode_eq (p : SecretParts tr) (h1 : p.s1.Within (-1073741824) 1073741824)
    (h2 : p.s2.Within (-1073741824) 1073741824) (h0 : p.t0.Within (-1073741824) 1073741824)
    {buffer : Bytes} (h : buffer.length = 4832 + tr) : p.checkedEncode buffer = .ok p.encode.bytes := by
  have hwrite : Writer.Appends p.write (p.rho.bytes ++ (p.key.bytes ++ (p.tr.bytes ++
      ((PolyVec.pack .eta p.s1).bytes ++ ((PolyVec.pack .eta p.s2).bytes ++
        (PolyVec.pack .t0 p.t0).bytes))))) :=
    (Writer.appends_bytes _).bind <| (Writer.appends_bytes _).bind <| (Writer.appends_bytes _).bind <|
      (Writer.appends_vector (by norm_num) .eta h1).bind <|
        (Writer.appends_vector (by norm_num) .eta h2).bind <|
          Writer.appends_vector (by norm_num) .t0 h0
  have hbytes : p.encode.bytes = p.rho.bytes ++ (p.key.bytes ++ (p.tr.bytes ++
      ((PolyVec.pack .eta p.s1).bytes ++ ((PolyVec.pack .eta p.s2).bytes ++
        (PolyVec.pack .t0 p.t0).bytes)))) := by
    simp only [encode, List.append_assoc]
  rw [hbytes]
  exact hwrite.run (h.trans (by rw [← hbytes, p.encode.length_eq]))

theorem checkedDecode_eq (b : ByteString (4832 + tr)) :
    checkedDecode tr b.bytes = .ok (decode b) := by
  have hrho : 0 + 32 = 32 := rfl
  have hkey : 32 + 32 = 64 := rfl
  have hs1 : 64 + tr + 7 * (32 * 3) = 736 + tr := by omega
  have hs2 : 736 + tr + 8 * (32 * 3) = 1504 + tr := by omega
  rw [checkedDecode, bind_of_eq (readBytes_eq b hrho (by omega))]
  simp only
  rw [bind_of_eq (readBytes_eq b hkey (by omega))]
  simp only
  rw [bind_of_eq (readBytes_eq b rfl (by omega))]
  simp only
  rw [bind_of_eq (readVector_eq (by norm_num) .eta hs1 (by rw [b.length_eq]; omega))]
  simp only
  rw [bind_of_eq (readVector_eq (by norm_num) .eta hs2 (by rw [b.length_eq]; omega))]
  simp only
  rw [bind_of_eq (readVector_eq (by norm_num) .t0 rfl (by rw [b.length_eq]; omega))]
  rfl

end SecretParts

namespace SignatureParts

variable {c : ℕ}

def write (p : SignatureParts c) (w : Writer) : Checked Writer := do
  let w ← w.bytes p.challenge.bytes
  let w ← w.vector .z p.z
  w.next 83 (Hint.checkedEncode p.hint)

def checkedEncode (p : SignatureParts c) : Bytes → Checked Bytes := Writer.run p.write

/-- Nothing is read of a byte string of another length. -/
def checkedDecode (c : ℕ) (b : Bytes) : Checked (Option (SignatureParts c)) :=
  if b.length ≠ 4563 + c then return none
  else do
    let (challenge, pos) ← readBytes b c 0
    let (z, pos) ← readVector .z 7 b pos
    let (hintBytes, _) ← readBytes b 83 pos
    let hint ← Hint.checkedDecode hintBytes.bytes
    return hint.map fun h => ⟨challenge, z, h⟩

theorem checkedEncode_eq (p : SignatureParts c) (hp : p.InRange) {buffer : Bytes}
    (h : buffer.length = 4563 + c) : p.checkedEncode buffer = .ok p.encode.bytes := by
  have hz : p.z.Within (-1073741824) 1073741824 := hp.z_within.mono (by norm_num) (by norm_num)
  have hones : (p.hint.toList.map Hint.positions).flatten.length ≤ 75 :=
    (Hint.length_flatten_positions hp.hint_zero_or_one).trans_le hp.total_hint_le
  have hwrite : Writer.Appends p.write (p.challenge.bytes ++ ((PolyVec.pack .z p.z).bytes ++
      (Hint.encode p.hint).bytes)) :=
    (Writer.appends_bytes _).bind <| (Writer.appends_vector (by norm_num) .z hz).bind <|
      .next (Hint.encode p.hint).length_eq fun part hpart => Hint.checkedEncode_eq hpart hones
  have hbytes : p.encode.bytes = p.challenge.bytes ++ ((PolyVec.pack .z p.z).bytes ++
      (Hint.encode p.hint).bytes) := by
    simp only [encode, List.append_assoc]
  rw [hbytes]
  exact hwrite.run (h.trans (by rw [← hbytes, p.encode.length_eq]))

theorem challenge_le : 0 + c ≤ 4563 + c := by omega

theorem hintSection_le : 4480 + c + 83 ≤ 4563 + c := by omega

theorem decode?_bytes (b : ByteString (4563 + c)) :
    decode? c b.bytes = (Hint.decode? (b.slice (4480 + c) 83 hintSection_le).bytes).map fun h =>
      ⟨b.slice 0 c challenge_le, PolyVec.unpack .z 7 c b.bytes, h⟩ := by
  unfold decode?
  rw [ByteString.ofBytes?, dif_pos b.length_eq]

theorem checkedDecode_eq (b : Bytes) : checkedDecode c b = .ok (decode? c b) := by
  by_cases hlength : b.length = 4563 + c
  · obtain ⟨s, rfl⟩ : ∃ s : ByteString (4563 + c), s.bytes = b := ⟨⟨b, hlength⟩, rfl⟩
    have hz : c + 7 * (32 * 20) = 4480 + c := by omega
    rw [checkedDecode, if_neg (not_not.2 hlength), bind_of_eq (readBytes_eq s (Nat.zero_add c) challenge_le)]
    simp only
    rw [bind_of_eq (readVector_eq (by norm_num) .z hz (by omega))]
    simp only
    rw [bind_of_eq (readBytes_eq s rfl hintSection_le), bind_of_eq (Hint.checkedDecode_eq _), decode?_bytes]
    rfl
  · rw [checkedDecode, if_pos hlength, decode?, ByteString.ofBytes?, dif_neg hlength]
    rfl

end SignatureParts

end LatticeSignature
