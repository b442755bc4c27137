import LatticeSignature.Proofs.Checked.BitStream
import LatticeSignature.Proofs.Sampler

/-!
# Checked samplers

The samplers write to an array of 256 numbers from the front on and read blocks into a buffer that
they use again and again. A candidate that is taken is written behind those before it, so that the
array is left by none of them, and neither is the buffer, whatever the streams hold.

* `Sampler.scanUniform`, `Sampler.scanEta`: the candidates of a buffer.
* `Sampler.complete`: further blocks, as long as the array is not full.
* `Sampler.Cursor.draw`: the next position of the shuffle.
* **`Matrix.checkedExpand_eq`**, **`PolyVec.checkedUniformEta_eq`**,
  **`PolyVec.checkedUniformGamma1_eq`**, **`Poly.checkedChallenge_eq`**: what is sampled.
-/

namespace LatticeSignature

open Checked Params

namespace Sampler

/-! ## Candidates in a buffer -/

/-- The number that three bytes hold, low byte first, without the top bit. -/
def candidate (x y z : UInt8) : UInt32 :=
  (x.toUInt32 ||| (y.toUInt32 <<< 8) ||| (z.toUInt32 <<< 16)) &&& 0x7fffff

/-- Writes the candidates below `q` to `a`, from `ctr` on, until it is full. -/
def scanUniform (a : List Int32) (ctr : ℕ) : Bytes → Checked (ℕ × List Int32)
  | x :: y :: z :: rest =>
    if ctr = a.length then return (ctr, a)
    else do
      let t ← word (candidate x y z).toNat
      if t < q then
        let a ← store a ctr t
        scanUniform a (ctr + 1) rest
      else scanUniform a ctr rest
  | _ => return (ctr, a)

def checkedEtaCoefficient (t : UInt8) : Checked Int32 := do
  let scaled ← unsigned 32 (205 * t.toNat)
  let residue ← minus t.toNat ((scaled >>> 10) * 5)
  let residue ← word residue
  Checked.sub 2 residue

/-- Writes to the position that the next coefficient has, or to the last one if there is none: what
was there before, unless a coefficient is taken. -/
def takeEta (last : ℕ) (w : ℕ × List Int32) (t : UInt8) : Checked (ℕ × List Int32) := do
  let coeff ← checkedEtaCoefficient t
  let take := t < 15 ∧ w.1 ≤ last
  let slot := min w.1 last
  let old ← elem w.2 slot
  let a ← store w.2 slot (if take then coeff else old)
  return (w.1 + if take then 1 else 0, a)

/-- Writes the coefficients of half bytes below 15 to `a`, until it is full. -/
def scanEta (a : List Int32) (buf : Bytes) : Checked (ℕ × List Int32) :=
  if a.length = 0 then return (0, a)
  else do
    let last ← minus a.length 1
    (nibbles buf).foldlM (takeEta last) (0, a)

theorem word_candidate (x y z : UInt8) : word (candidate x y z).toNat = .ok (uniformCandidate x y z) :=
  word_eq (toInt_uniformCandidate x y z)

theorem scanUniform_eq (found room : List Int32) (buf : Bytes) :
    scanUniform (found ++ room) found.length buf =
      .ok ((found ++ acceptUniform room.length buf).length,
        found ++ writeFront room (acceptUniform room.length buf)) := by
  generalize hn : room.length = n
  fun_induction acceptUniform n buf generalizing found room with
  | case1 buf =>
    obtain rfl := List.length_eq_zero_iff.1 hn
    unfold scanUniform
    split
    · rw [if_pos (by simp)]
      simp [writeFront, pure, Except.pure]
    · simp [writeFront, pure, Except.pure]
  | case2 n x y z rest t ht ih =>
    obtain ⟨r, room, rfl⟩ := List.exists_cons_of_length_eq_add_one hn
    have hrest := ih (found ++ [t]) room (by simpa using hn)
    rw [scanUniform, if_neg (by simp), bind_of_eq (word_candidate x y z), if_pos ht,
      bind_of_eq (store_append r _)]
    simpa [writeFront] using hrest
  | case3 n x y z rest t ht ih =>
    rw [scanUniform, if_neg (by simp [hn]), bind_of_eq (word_candidate x y z), if_neg ht]
    exact ih found room hn
  | case4 n buf hbuf =>
    unfold scanUniform
    split
    · exact absurd rfl (hbuf _ _ _ _)
    · simp [writeFront, pure, Except.pure]

theorem scanUniform_all (a : List Int32) (buf : Bytes) : scanUniform a 0 buf = .ok (fillUniform a buf) :=
  scanUniform_eq [] a buf

theorem checkedEtaCoefficient_eq {t : UInt8} (h : t.toNat < 16) :
    checkedEtaCoefficient t = .ok (etaCoefficient t) := by
  have hall : ∀ n < 16, checkedEtaCoefficient (.ofNat n) = .ok (etaCoefficient (.ofNat n)) := by
    decide
  have := hall t.toNat h
  rwa [UInt8.ofNat_toNat] at this

section Scan

variable {t : UInt8} {last : ℕ} {found room : List Int32}

theorem takeEta_of_skip (ht : t.toNat < 16) {ctr : ℕ} {a : List Int32} (ha : a.length = last + 1)
    (h : ¬(t < 15 ∧ ctr ≤ last)) : takeEta last (ctr, a) t = .ok (ctr, a) := by
  have hslot : min ctr last < a.length := by omega
  rw [takeEta, bind_of_eq (checkedEtaCoefficient_eq ht)]
  simp only
  rw [bind_of_eq (elem_eq hslot), if_neg h, if_neg h, bind_of_eq (store_eq hslot _),
    List.set_getElem_self]
  rfl

theorem takeEta_of_take (h : t < 15) {r : Int32} (hlength : found.length + room.length = last) :
    takeEta last (found.length, found ++ r :: room) t =
      .ok (found.length + 1, found ++ etaCoefficient t :: room) := by
  have hslot : min found.length last = found.length := by omega
  have ht : t.toNat < 16 := (UInt8.lt_iff_toNat_lt.1 h).trans (by decide)
  have htake : t < 15 ∧ found.length ≤ last := ⟨h, by omega⟩
  rw [takeEta, bind_of_eq (checkedEtaCoefficient_eq ht)]
  simp only
  rw [hslot, bind_of_eq (elem_eq (by simp)), if_pos htake, if_pos htake, bind_of_eq (store_append r _)]
  rfl

theorem foldlM_takeEta_eq {ts : Bytes} (hts : ∀ t ∈ ts, t.toNat < 16)
    (hlength : found.length + room.length = last + 1) :
    ts.foldlM (takeEta last) (found.length, found ++ room) =
      .ok ((found ++ acceptEta room.length ts).length,
        found ++ writeFront room (acceptEta room.length ts)) := by
  induction ts generalizing found room with
  | nil => cases room <;> simp [acceptEta, writeFront, pure, Except.pure]
  | cons t ts ih =>
    rw [List.forall_mem_cons] at hts
    rw [List.foldlM_cons]
    cases room with
    | nil =>
      have hfull : ¬(t < 15 ∧ found.length ≤ last) := fun h => absurd hlength (by simp; omega)
      rw [bind_of_eq (takeEta_of_skip hts.1 (by simpa using hlength) hfull), ih hts.2 hlength]
      simp [acceptEta]
    | cons r room =>
      by_cases ht : t < 15
      · have hrest := @ih (found ++ [etaCoefficient t]) room hts.2 (by simp at hlength ⊢; omega)
        rw [List.append_assoc, List.length_append, List.length_singleton] at hrest
        rw [bind_of_eq (takeEta_of_take ht (by simp at hlength; omega)), List.length_cons, acceptEta, if_pos ht]
        simpa [writeFront] using hrest
      · rw [bind_of_eq (takeEta_of_skip hts.1 (by simpa using hlength) fun h => ht h.1), ih hts.2 hlength,
          List.length_cons, acceptEta, if_neg ht]

theorem nibbles_lt {buf : Bytes} : ∀ t ∈ nibbles buf, t.toNat < 16 := by
  intro t ht
  obtain ⟨b, -, hb⟩ := List.mem_flatMap.1 ht
  have hlt := b.toNat_lt
  rcases List.mem_pair.1 hb with rfl | rfl
  · rw [UInt8.toNat_and]
    exact Nat.lt_succ_of_le Nat.and_le_right
  · rw [UInt8.toNat_shiftRight]
    change b.toNat >>> 4 < 16
    rw [Nat.shiftRight_eq_div_pow]
    omega

theorem scanEta_eq (a : List Int32) (buf : Bytes) : scanEta a buf = .ok (fillEta a buf) := by
  unfold scanEta fillEta
  by_cases ha : a.length = 0
  · obtain rfl := List.length_eq_zero_iff.1 ha
    simp [acceptEta, writeFront, pure, Except.pure]
  · have hfold := @foldlM_takeEta_eq (a.length - 1) [] a _ (@nibbles_lt buf) (by simp; omega)
    rw [if_neg ha, bind_of_eq (minus_eq (by omega))]
    exact hfold

end Scan

/-! ## Candidates in a stream -/

/-- Reads the next `k` blocks to the front of a buffer. -/
def squeezeBlocks {rate : ℕ} (X : Xof rate) (k : ℕ) (s : X.State) (out : Bytes) :
    Checked (Bytes × X.State) := do
  let out ← splice out 0 (X.read k s).1
  return (out, (X.read k s).2)

/-- A buffer of which the first `buflen` bytes are in use, and the stream behind them. -/
structure UniformSource (X : Xof 168) where
  buf : Bytes
  buflen : ℕ
  state : X.State

/-- Moves the bytes behind the last whole triple to the front and reads a block behind them. -/
def UniformSource.refill {X : Xof 168} (w : UniformSource X) : Checked (Bytes × UniformSource X) := do
  let off := w.buflen % 3
  let start ← minus w.buflen off
  let rest ← slice w.buf start w.buflen
  let buf ← splice w.buf 0 rest
  let room ← slice buf off buf.length
  let (room, state) ← squeezeBlocks X 1 w.state room
  let buf ← splice buf off room
  let buflen := 168 + off
  let listed ← slice buf 0 buflen
  return (listed, ⟨buf, buflen, state⟩)

/-- Reads a block over the last one. -/
def refillEta (X : Xof 136) (w : Bytes × X.State) : Checked (Bytes × Bytes × X.State) := do
  let (buf, state) ← squeezeBlocks X 1 w.2 w.1
  let listed ← slice buf 0 136
  return (listed, buf, state)

/-- Lets `fill` write to `a` from `ctr` on. -/
def extend (fill : List Int32 → Checked (ℕ × List Int32)) (w : ℕ × List Int32) :
    Checked (ℕ × List Int32) := do
  let room ← slice w.2 w.1 w.2.length
  let (n, room) ← fill room
  let a ← splice w.2 w.1 room
  return (w.1 + n, a)

section Complete

variable {σ : Type} (refill : σ → Checked (Bytes × σ)) (fill : List Int32 → Bytes → Checked (ℕ × List Int32))

/-- Goes on with what `refill` reads, as long as there are not 256 numbers. -/
def complete : ℕ → σ → ℕ × List Int32 → Checked (Option (List Int32))
  | 0, _, w => return if w.1 < 256 then none else some w.2
  | fuel + 1, source, w =>
    if w.1 < 256 then do
      let (listed, source) ← refill source
      let w ← extend (fill · listed) w
      complete fuel source w
    else return some w.2

end Complete

theorem squeezeBlocks_eq {rate : ℕ} (X : Xof rate) {k : ℕ} (s : X.State) {out : Bytes}
    (h : rate * k ≤ out.length) :
    squeezeBlocks X k s out = .ok ((X.read k s).1 ++ out.drop (rate * k), (X.read k s).2) := by
  have hlength := X.length_read k s
  rw [squeezeBlocks, bind_of_eq (splice_front (by rwa [hlength])), hlength]
  rfl

theorem read_one {rate : ℕ} (X : Xof rate) (s : X.State) :
    X.read 1 s = ((X.block s).toList, X.next s) := by
  simp [Xof.read]

section Refill

variable {listed unused : Bytes}

theorem length_carry : (carry listed).length = listed.length % 3 := by
  have := Nat.mod_le listed.length 3
  rw [carry, List.length_drop]
  omega

theorem UniformSource.refill_eq {X : Xof 168} (s : X.State)
    (hlength : listed.length + unused.length = 842) :
    ∃ unused', (carry listed ++ (X.block s).toList).length + unused'.length = 842 ∧
      refill ⟨listed ++ unused, listed.length, s⟩ =
        .ok (carry listed ++ (X.block s).toList,
          ⟨carry listed ++ (X.block s).toList ++ unused',
            (carry listed ++ (X.block s).toList).length, X.next s⟩) := by
  have hblock : (X.block s).toList.length = 168 := Vector.length_toList
  have hoff := @length_carry listed
  have hle := Nat.mod_le listed.length 3
  have hlt := Nat.mod_lt listed.length (show 0 < 3 by norm_num)
  have hrest : slice (listed ++ unused) (listed.length - (carry listed).length) listed.length =
      .ok (carry listed) := by
    have htake : (listed.take (listed.length - (carry listed).length)).length =
      listed.length - (carry listed).length := List.length_take_of_le (Nat.sub_le _ _)
    have hlisted : listed.take (listed.length - (carry listed).length) ++ carry listed = listed := by
      rw [hoff]
      exact List.take_append_drop _ _
    have h := @slice_append _ (listed.take (listed.length - (carry listed).length)) (carry listed) unused
      listed.length (by rw [htake]; omega)
    rwa [hlisted, htake] at h
  obtain ⟨room, hroom⟩ : ∃ room, (listed ++ unused).drop (carry listed).length = room := ⟨_, rfl⟩
  have hsize : room.length = 842 - (carry listed).length := by
    rw [← hroom, List.length_drop, List.length_append, hlength]
  refine ⟨room.drop 168, by simp; omega, ?_⟩
  rw [refill]
  simp only
  rw [← hoff, bind_of_eq (minus_eq (by omega)), bind_of_eq hrest,
    bind_of_eq (splice_front (by simp; omega)), hroom, bind_of_eq slice_to_end,
    bind_of_eq (squeezeBlocks_eq X s (by omega)), read_one]
  simp only
  rw [bind_of_eq (splice_to_end (by simp; omega)), ← List.append_assoc,
    bind_of_eq (slice_front (by simp; omega))]
  simp [pure, Except.pure, Nat.add_comm]

theorem refillEta_eq {X : Xof 136} (s : X.State) {buf : Bytes} (h : buf.length = 136) :
    refillEta X (buf, s) = .ok ((X.block s).toList, (X.block s).toList, X.next s) := by
  have hblock : (X.block s).toList.length = 136 := Vector.length_toList
  rw [refillEta, bind_of_eq (squeezeBlocks_eq X s (by simp [h])), read_one]
  simp only
  rw [List.drop_of_length_le (by simp [h]), List.append_nil, bind_of_eq (slice_all hblock)]
  rfl

theorem extend_eq {fill : List Int32 → Checked (ℕ × List Int32)} {found room more : List Int32}
    (h : fill room = .ok (more.length, writeFront room more)) (hle : more.length ≤ room.length) :
    extend fill (found.length, found ++ room) =
      .ok ((found ++ more).length, found ++ more ++ room.drop more.length) := by
  rw [extend, bind_of_eq slice_to_end, bind_of_eq h]
  simp only
  rw [bind_of_eq (splice_to_end (by simp [writeFront]; omega)), writeFront, List.length_append,
    List.append_assoc]
  rfl

end Refill

theorem length_acceptUniform_le (n : ℕ) (buf : Bytes) : (acceptUniform n buf).length ≤ n := by
  fun_induction acceptUniform n buf with
  | case1 => exact le_rfl
  | case2 n x y z rest t ht ih => exact Nat.succ_le_succ ih
  | case3 n x y z rest t ht ih => exact ih
  | case4 => exact Nat.zero_le _

theorem length_acceptEta_le (n : ℕ) (ts : Bytes) : (acceptEta n ts).length ≤ n := by
  fun_induction acceptEta n ts with
  | case1 => exact le_rfl
  | case2 => exact Nat.zero_le _
  | case3 n t ts ht ih => exact Nat.succ_le_succ ih
  | case4 n t ts ht ih => exact ih

section Streams

variable {found room : List Int32} (hlength : found.length + room.length = 256)

include hlength

theorem append_room (h : ¬found.length < 256) : found ++ room = found := by
  rw [List.length_eq_zero_iff.1 (show room.length = 0 by omega), List.append_nil]

theorem complete_uniform_eq {X : Xof 168} (fuel : ℕ) (s : X.State) {listed unused : Bytes}
    (hbuf : listed.length + unused.length = 842) :
    complete UniformSource.refill (scanUniform · 0) fuel ⟨listed ++ unused, listed.length, s⟩
        (found.length, found ++ room) = .ok (moreUniform X fuel s (carry listed) found) := by
  induction fuel generalizing found room s listed unused with
  | zero =>
    rw [complete, moreUniform]
    split
    · rfl
    · rw [append_room hlength ‹_›]
      rfl
  | succ fuel ih =>
    rw [complete, moreUniform]
    split
    · obtain ⟨unused', hbuf', hrefill⟩ := UniformSource.refill_eq s hbuf
      have hroom : 256 - found.length = room.length := by omega
      have hle := length_acceptUniform_le room.length (carry listed ++ (X.block s).toList)
      rw [bind_of_eq hrefill]
      simp only
      rw [bind_of_eq (extend_eq (scanUniform_all room _) hle), hroom]
      exact ih (by simp; omega) _ hbuf'
    · rw [append_room hlength ‹_›]
      rfl

theorem complete_eta_eq {X : Xof 136} (fuel : ℕ) (s : X.State) {buf : Bytes} (hbuf : buf.length = 136) :
    complete (refillEta X) scanEta fuel (buf, s) (found.length, found ++ room) =
      .ok (moreEta X fuel s found) := by
  induction fuel generalizing found room s buf with
  | zero =>
    rw [complete, moreEta]
    split
    · rfl
    · rw [append_room hlength ‹_›]
      rfl
  | succ fuel ih =>
    rw [complete, moreEta]
    split
    · have hroom : 256 - found.length = room.length := by omega
      have hle := length_acceptEta_le room.length (nibbles (X.block s).toList)
      rw [bind_of_eq (refillEta_eq s hbuf)]
      simp only
      rw [bind_of_eq (extend_eq (scanEta_eq room _) hle), hroom]
      exact ih (by simp; omega) _ Vector.length_toList
    · rw [append_room hlength ‹_›]
      rfl

end Streams

/-! ## The shuffle -/

theorem nextAtMost_nil (X : Xof 136) (i fuel : ℕ) (s : X.State) :
    nextAtMost X i (fuel + 1) s [] = nextAtMost X i fuel (X.next s) (X.block s).toList := by
  conv_lhs => unfold nextAtMost
  rfl

theorem nextAtMost_cons (X : Xof 136) (i fuel : ℕ) (s : X.State) (b : UInt8) (rest : Bytes) :
    nextAtMost X i fuel s (b :: rest) =
      if b.toNat ≤ i then some (b, s, rest) else nextAtMost X i fuel s rest := by
  by_cases hb : b.toNat ≤ i
  · have hkeep : (b :: rest).dropWhile (fun b => i < b.toNat) = b :: rest :=
      List.dropWhile_cons_of_neg (by simpa using hb)
    unfold nextAtMost
    rw [hkeep, if_pos hb]
  · have hdrop : (b :: rest).dropWhile (fun b => i < b.toNat) = rest.dropWhile fun b => i < b.toNat :=
      List.dropWhile_cons_of_pos (by simpa using hb)
    unfold nextAtMost
    rw [hdrop, if_neg hb]

/-- A block of a stream with the position of the next byte to read. -/
structure Cursor (X : Xof 136) where
  block : Vector UInt8 136
  pos : ℕ
  state : X.State

namespace Cursor

variable {X : Xof 136}

/-- The bytes still to be read. -/
def pending (c : Cursor X) : Bytes := c.block.toList.drop c.pos

theorem pending_of_le {c : Cursor X} (h : 136 ≤ c.pos) : c.pending = [] :=
  List.drop_of_length_le (by simpa using h)

/-- The next byte that is at most `i`. -/
def draw (i : ℕ) (fuel : ℕ) (c : Cursor X) : Checked (Option (UInt8 × Cursor X)) :=
  if 136 ≤ c.pos then
    match fuel with
    | 0 => return none
    | fuel + 1 => draw i fuel ⟨X.block c.state, 0, X.next c.state⟩
  else do
    let b ← get c.block c.pos
    if b.toNat ≤ i then return some (b, { c with pos := c.pos + 1 })
    else draw i fuel { c with pos := c.pos + 1 }
termination_by (fuel, 136 - c.pos)

theorem draw_eq (i fuel : ℕ) (c : Cursor X) :
    ∃ r, draw i fuel c = .ok r ∧
      r.map (fun (b, c) => (b, c.state, c.pending)) = nextAtMost X i fuel c.state c.pending := by
  fun_induction draw i fuel c with
  | case1 c hpos =>
    refine ⟨none, rfl, ?_⟩
    rw [pending_of_le hpos]
    rfl
  | case2 c hpos fuel ih =>
    obtain ⟨r, hr, hnext⟩ := ih
    exact ⟨r, hr, by rw [hnext, pending_of_le hpos, nextAtMost_nil]; rfl⟩
  | case3 fuel c hpos ih =>
    have hlt : c.pos < 136 := Nat.lt_of_not_le hpos
    have hpending : c.pending = c.block[c.pos] :: (c.block.toList.drop (c.pos + 1)) :=
      List.drop_eq_getElem_cons (by simpa using hlt)
    rw [bind_of_eq (get_eq c.block hlt), hpending, nextAtMost_cons]
    by_cases hb : c.block[c.pos].toNat ≤ i
    · rw [if_pos hb, if_pos hb]
      exact ⟨_, rfl, rfl⟩
    · rw [if_neg hb, if_neg hb]
      exact ih

end Cursor

/-- The shuffle under way, with a cursor in its stream. -/
structure CheckedShuffle (X : Xof 136) where
  coeffs : Vector Int32 256
  signs : UInt64
  cursor : Cursor X

namespace CheckedShuffle

variable {X : Xof 136}

def shuffle (w : CheckedShuffle X) : Shuffle X := ⟨w.coeffs, w.signs, w.cursor.state, w.cursor.pending⟩

/-- The sign of the lowest bit. -/
def sign (signs : UInt64) : Checked Int32 := do
  let bit ← word (signs &&& 1).toNat
  let twice ← Checked.mul 2 bit
  Checked.sub 1 twice

def step (patience i : ℕ) (w : CheckedShuffle X) : Checked (Option (CheckedShuffle X)) := do
  match ← w.cursor.draw i patience with
  | none => return none
  | some (b, cursor) =>
    let c ← get w.coeffs b.toNat
    let coeffs ← set w.coeffs i c
    let s ← sign w.signs
    let coeffs ← set coeffs b.toNat s
    return some ⟨coeffs, w.signs >>> 1, cursor⟩

theorem sign_eq (signs : UInt64) : sign signs = .ok (1 - 2 * (signs &&& 1).toUInt32.toInt32) := by
  rcases and_one_eq signs with h | h <;> rw [sign, h] <;> decide

theorem step_eq (patience : ℕ) (i : Fin 256) (w : CheckedShuffle X) :
    ∃ r, step patience i w = .ok r ∧ r.map shuffle = w.shuffle.step X patience i := by
  obtain ⟨drawn, hdrawn, hnext⟩ := w.cursor.draw_eq i patience
  have hshuffle : nextAtMost X i patience w.shuffle.state w.shuffle.pending =
      drawn.map fun (b, c) => (b, c.state, c.pending) := hnext.symm
  rw [step, bind_of_eq hdrawn, Shuffle.step, hshuffle]
  cases drawn with
  | none => exact ⟨none, rfl, rfl⟩
  | some r =>
    obtain ⟨b, cursor⟩ := r
    simp only
    rw [bind_of_eq (get_eq _ b.toNat_lt), bind_of_eq (set_eq _ i.isLt _), bind_of_eq (sign_eq _),
      bind_of_eq (set_eq _ b.toNat_lt _)]
    exact ⟨_, rfl, rfl⟩

/-- Steps at all listed positions, unless the stream ends. -/
def run (patience : ℕ) : List (Fin 256) → CheckedShuffle X → Checked (Option (CheckedShuffle X))
  | [], w => return some w
  | i :: l, w => do
    match ← step patience i w with
    | none => return none
    | some w => run patience l w

theorem run_eq (patience : ℕ) (l : List (Fin 256)) (w : CheckedShuffle X) :
    ∃ r, run patience l w = .ok r ∧ r.map shuffle = l.foldlM (Shuffle.step X patience) w.shuffle := by
  induction l generalizing w with
  | nil => exact ⟨some w, rfl, rfl⟩
  | cons i l ih =>
    obtain ⟨r, hr, hstep⟩ := step_eq patience i w
    rw [run, bind_of_eq hr, List.foldlM_cons, ← hstep]
    cases r with
    | none => exact ⟨none, rfl, rfl⟩
    | some w => exact ih w

end CheckedShuffle

end Sampler

/-! ## Sampled polynomials and vectors -/

open Sampler

namespace Poly

def checkedUniform (O : Oracle) (seed : Bytes) (nonce : UInt16) : Checked (Option (Poly .transformed)) := do
  let X := O.shake128
  let (buf, s) ← squeezeBlocks X 5 (X.start (seed ++ Bytes.ofUInt16 nonce)) (List.replicate 842 0)
  let listed ← slice buf 0 840
  let w ← scanUniform (List.replicate 256 0) 0 listed
  let a ← complete UniformSource.refill (scanUniform · 0) O.patience ⟨buf, 840, s⟩ w
  return a.map ofList

def checkedUniformEta (O : Oracle) (seed : Bytes) (nonce : UInt16) : Checked (Option (Poly .plain)) := do
  let X := O.shake256
  let (buf, s) ← squeezeBlocks X 1 (X.start (seed ++ Bytes.ofUInt16 nonce)) (List.replicate 136 0)
  let w ← scanEta (List.replicate 256 0) buf
  let a ← complete (refillEta X) scanEta O.patience (buf, s) w
  return a.map ofList

def checkedUniformGamma1 (O : Oracle) (seed : Bytes) (nonce : UInt16) : Checked (Poly .plain) := do
  let X := O.shake256
  let (buf, _) ← squeezeBlocks X 5 (X.start (seed ++ Bytes.ofUInt16 nonce)) (List.replicate 680 0)
  checkedUnpack .z buf

def checkedChallenge (O : Oracle) (hash : Bytes) : Checked (Option (Poly .plain)) := do
  let X := O.shake256
  let s := X.start hash
  let first := X.block s
  let signs ← slice first.toList 0 8
  let w : CheckedShuffle X := ⟨.replicate 256 0, Bytes.toUInt64 signs, ⟨first, 8, X.next s⟩⟩
  let w ← w.run O.patience lastPositions
  return w.map fun w => ⟨w.coeffs⟩

section Sampled

variable (O : Oracle) (seed : Bytes) (nonce : UInt16)

theorem checkedUniform_eq : checkedUniform O seed nonce = .ok (uniform O seed nonce) := by
  obtain ⟨s, hs⟩ : ∃ s, O.shake128.start (seed ++ Bytes.ofUInt16 nonce) = s := ⟨_, rfl⟩
  obtain ⟨zeros, hzeros, hcount⟩ : ∃ zeros : List Int32, List.replicate 256 0 = zeros ∧ zeros.length = 256 :=
    ⟨_, rfl, List.length_replicate⟩
  have hlisted : (O.shake128.read 5 s).1.length = 840 := O.shake128.length_read 5 s
  have hle := length_acceptUniform_le 256 (O.shake128.read 5 s).1
  rw [checkedUniform, uniform, hzeros]
  simp only
  rw [hs, bind_of_eq (squeezeBlocks_eq _ s (by rw [List.length_replicate]; norm_num))]
  simp only
  rw [List.drop_replicate, bind_of_eq (slice_front hlisted.symm), bind_of_eq (scanUniform_all _ _),
    fillUniform, hcount, writeFront, ← hlisted,
    bind_of_eq (complete_uniform_eq (by rw [List.length_drop]; omega) _ _
    (by rw [hlisted, List.length_replicate]; rfl))]
  rfl

theorem checkedUniformEta_eq : checkedUniformEta O seed nonce = .ok (uniformEta O seed nonce) := by
  obtain ⟨s, hs⟩ : ∃ s, O.shake256.start (seed ++ Bytes.ofUInt16 nonce) = s := ⟨_, rfl⟩
  obtain ⟨zeros, hzeros, hcount⟩ : ∃ zeros : List Int32, List.replicate 256 0 = zeros ∧ zeros.length = 256 :=
    ⟨_, rfl, List.length_replicate⟩
  have hle := length_acceptEta_le 256 (nibbles (O.shake256.block s).toList)
  rw [checkedUniformEta, uniformEta, hzeros]
  simp only
  rw [hs, bind_of_eq (squeezeBlocks_eq _ s (by rw [List.length_replicate]; norm_num)), read_one]
  simp only
  rw [List.drop_replicate, show 136 - shake256Rate * 1 = 0 from rfl, List.replicate_zero,
    List.append_nil, bind_of_eq (scanEta_eq _ _), fillEta, hcount, writeFront,
    bind_of_eq (complete_eta_eq (by rw [List.length_drop]; omega) _ _ Vector.length_toList)]
  rfl

theorem checkedUniformGamma1_eq :
    checkedUniformGamma1 O seed nonce = .ok (uniformGamma1 O seed nonce) := by
  have hlength := O.shake256.length_read 5 (O.shake256.start (seed ++ Bytes.ofUInt16 nonce))
  rw [checkedUniformGamma1]
  simp only
  rw [bind_of_eq (squeezeBlocks_eq _ _ (by rw [List.length_replicate]; norm_num))]
  simp only
  rw [List.drop_replicate, show 680 - shake256Rate * 5 = 0 from rfl, List.replicate_zero, List.append_nil]
  exact checkedUnpack_eq (by norm_num) (by rw [hlength]; norm_num)

theorem checkedChallenge_eq (hash : Bytes) : checkedChallenge O hash = .ok (challenge O hash) := by
  obtain ⟨first, hfirst⟩ : ∃ first, O.shake256.block (O.shake256.start hash) = first := ⟨_, rfl⟩
  have hlength : first.toList.length = 136 := Vector.length_toList
  have hsigns : Bytes.toUInt64 (first.toList.take 8) = Bytes.toUInt64 first.toList := by
    rw [Bytes.toUInt64, Bytes.toUInt64, List.take_take]
    rfl
  rw [checkedChallenge, challenge]
  simp only
  rw [hfirst, bind_of_eq (slice_eq (Nat.zero_le 8) (by omega)), List.drop_zero, hsigns]
  obtain ⟨w, hw⟩ : ∃ w : CheckedShuffle O.shake256, ⟨.replicate 256 0, Bytes.toUInt64 first.toList,
    ⟨first, 8, O.shake256.next (O.shake256.start hash)⟩⟩ = w := ⟨_, rfl⟩
  have hshuffle : (⟨.replicate 256 0, Bytes.toUInt64 first.toList,
      O.shake256.next (O.shake256.start hash), first.toList.drop 8⟩ : Shuffle O.shake256) = w.shuffle := by
    rw [← hw]
    rfl
  obtain ⟨r, hr, hrun⟩ := w.run_eq O.patience lastPositions
  rw [hw, bind_of_eq hr, hshuffle, ← hrun, Option.map_map]
  rfl

end Sampled

end Poly

theorem collect?_get_ofFn {α : Type} {n : ℕ} (f : Fin n → Option α) :
    collect? (fun i => (Vector.ofFn f).get i) = collect? f :=
  congrArg collect? (funext fun i => Vector.getElem_ofFn i.isLt)

namespace PolyVec

def checkedUniformEta (O : Oracle) (n : ℕ) (seed : Bytes) (nonce : UInt16) :
    Checked (Option (PolyVec .plain n)) := do
  let found ← tabulate fun i => do
    let i ← word16 i.val
    let k ← word16 (nonce.toNat + i.toNat)
    Poly.checkedUniformEta O seed k
  return collect? found.get

/-- The nonces wrap around. -/
def checkedUniformGamma1 (O : Oracle) (seed : Bytes) (nonce : UInt16) : Checked (PolyVec .plain 7) :=
  tabulate fun i => do
    let i ← word16 i.val
    Poly.checkedUniformGamma1 O seed (7 * nonce + i)

theorem checkedUniformEta_eq (O : Oracle) {n : ℕ} (seed : Bytes) {nonce : UInt16}
    (h : nonce.toNat + n < 65536) :
    checkedUniformEta O n seed nonce = .ok (uniformEta O n seed nonce) := by
  have hentry : ∀ i : Fin n, (do
      let i ← word16 i.val
      let k ← word16 (nonce.toNat + i.toNat)
      Poly.checkedUniformEta O seed k) = .ok (Poly.uniformEta O seed (nonce + i.val.toUInt16)) := by
    intro i
    have hlt : i.val < 65536 := by omega
    have hi : i.val.toUInt16.toNat = i.val := UInt16.toNat_ofNat_of_lt' hlt
    have hsum : (nonce.toNat + i.val).toUInt16 = nonce + i.val.toUInt16 := by
      rw [show (nonce.toNat + i.val).toUInt16 = _ from UInt16.ofNat_add _ _, UInt16.ofNat_toNat]
    rw [bind_of_eq (word16_eq (by omega)), hi, bind_of_eq (word16_eq (by omega)), hsum]
    exact Poly.checkedUniformEta_eq O seed _
  rw [checkedUniformEta, bind_of_eq (tabulate_eq hentry)]
  exact congrArg Except.ok (collect?_get_ofFn _)

theorem checkedUniformGamma1_eq (O : Oracle) (seed : Bytes) (nonce : UInt16) :
    checkedUniformGamma1 O seed nonce = .ok (uniformGamma1 O seed nonce) := by
  refine tabulate_eq fun i => ?_
  rw [bind_of_eq (word16_eq (by omega))]
  exact Poly.checkedUniformGamma1_eq O seed _

end PolyVec

namespace Matrix

def checkedExpand (O : Oracle) (rho : Bytes) : Checked (Option Matrix) := do
  let rows ← tabulate fun i : Fin 8 => do
    let row ← tabulate fun j : Fin 7 => do
      let nonce ← word16 ((i.val <<< 8) + j.val)
      Poly.checkedUniform O rho nonce
    return collect? row.get
  return collect? rows.get

theorem checkedExpand_eq (O : Oracle) (rho : Bytes) : checkedExpand O rho = .ok (expand O rho) := by
  have hentry : ∀ (i : Fin 8) (j : Fin 7), (do
      let nonce ← word16 ((i.val <<< 8) + j.val)
      Poly.checkedUniform O rho nonce) =
        .ok (Poly.uniform O rho (256 * i.val + j.val).toUInt16) := by
    intro i j
    have hnonce : (i.val <<< 8) + j.val = 256 * i.val + j.val := by
      rw [Nat.shiftLeft_eq, Nat.mul_comm]
    rw [hnonce, bind_of_eq (word16_eq (by omega))]
    exact Poly.checkedUniform_eq O rho _
  have hrow : ∀ i : Fin 8, (do
      let row ← tabulate fun j : Fin 7 => do
        let nonce ← word16 ((i.val <<< 8) + j.val)
        Poly.checkedUniform O rho nonce
      return collect? row.get : Checked _) =
        .ok (collect? fun j => Poly.uniform O rho (256 * i.val + j.val).toUInt16) := by
    intro i
    rw [bind_of_eq (tabulate_eq (hentry i))]
    exact congrArg Except.ok (collect?_get_ofFn _)
  rw [checkedExpand, bind_of_eq (tabulate_eq hrow)]
  exact congrArg Except.ok (collect?_get_ofFn _)

end Matrix

end LatticeSignature
