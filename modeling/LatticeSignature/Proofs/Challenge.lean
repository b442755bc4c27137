import LatticeSignature.Proofs.BitStream
import LatticeSignature.Proofs.Sampler
import LatticeSignature.Proofs.Stream
import Mathlib.Data.List.TakeWhile

/-!
# Challenges as shuffles of a stream

The challenge sampler moves signs about in place, at positions that it draws from a stream. It reads the
stream in blocks and skips bytes that are too large, so that a draw may fetch any number of blocks.

* `Sampler.Shuffled`: the shuffle, draw by draw, on a stream of bytes.
* **`Sampler.Shuffled.card_nonzero`**: every draw adds one sign.
* `Sampler.exists_place_of_nextAtMost`, `Sampler.isSome_nextAtMost`: a draw finds the next byte that
  will do.
* **`Sampler.Follows.step`**: a step of the sampler is a draw of the shuffle.
* **`Sampler.exists_shuffled`**, **`Sampler.isSome_foldlM_of_shuffled`**: so are all its steps together.
* **`challenge_shuffles_stream`**.
-/

namespace LatticeSignature

namespace Sampler

/-! ## The shuffle on a stream -/

/-- The sign that bit `k` of a stream stands for, the lowest bit of a byte being its first. -/
def streamSign (stream : ℕ → UInt8) (k : ℕ) : ℤ :=
  if (stream (k / 8)).toNat.testBit (k % 8) then -1 else 1

/-- **The in-place shuffle on a stream**: the coefficients after `k` draws, if the next draw begins at
byte `p` of the stream. A draw for position `i` takes the first byte `j` that is at most `i`, moves the
coefficient at `j` to `i` and puts the next sign in its place. -/
inductive Shuffled (stream : ℕ → UInt8) : (k p : ℕ) → (Fin 256 → ℤ) → Prop
  /-- The signs stand before byte 8. -/
  | start : Shuffled stream 0 8 fun _ => 0
  | draw {k p place : ℕ} {c : Fin 256 → ℤ} {i j : Fin 256} (h : Shuffled stream k p c)
      (hi : i.val = 196 + k) (hplace : IsLeast {m | p ≤ m ∧ (stream m).toNat ≤ i} place)
      (hj : j.val = (stream place).toNat) :
      Shuffled stream (k + 1) (place + 1)
        (Function.update (Function.update c i (c j)) j (streamSign stream k))

theorem streamSign_eq (stream : ℕ → UInt8) (k : ℕ) :
    streamSign stream k = 1 ∨ streamSign stream k = -1 := by
  unfold streamSign
  split
  · exact Or.inr rfl
  · exact Or.inl rfl

namespace Shuffled

variable {stream : ℕ → UInt8} {k p p' : ℕ} {c c' : Fin 256 → ℤ}

theorem zero_or_sign (h : Shuffled stream k p c) (m : Fin 256) : c m = 0 ∨ c m = 1 ∨ c m = -1 := by
  induction h generalizing m with
  | start => exact Or.inl rfl
  | @draw k _ _ _ _ _ _ _ _ _ ih =>
    rw [Function.update_apply]
    split
    · exact Or.inr (streamSign_eq stream k)
    · rw [Function.update_apply]
      split
      · exact ih _
      · exact ih m

theorem eq_zero (h : Shuffled stream k p c) {m : Fin 256} (hm : 196 + k ≤ m.val) : c m = 0 := by
  induction h with
  | start => rfl
  | draw _ hi hplace hj ih =>
    have hle := hplace.1.2
    rw [Function.update_of_ne (fun h => by subst h; omega),
      Function.update_of_ne (fun h => by subst h; omega)]
    exact ih (by omega)

/-- **Every draw adds one sign**: at the drawn position if there was none, and at its own otherwise. -/
theorem card_nonzero (h : Shuffled stream k p c) : (Finset.univ.filter fun m => c m ≠ 0).card = k := by
  induction h with
  | start => simp
  | @draw k _ _ c i j h hi _ _ ih =>
    have hi0 : c i = 0 := h.eq_zero hi.ge
    have hsign : streamSign stream k ≠ 0 := by
      rcases streamSign_eq stream k with hs | hs <;> rw [hs] <;> decide
    have hinsert : (Finset.univ.filter fun m =>
        Function.update (Function.update c i (c j)) j (streamSign stream k) m ≠ 0) =
        insert (if c j = 0 then j else i) (Finset.univ.filter fun m => c m ≠ 0) := by
      ext m
      rw [Finset.mem_filter_univ, Finset.mem_insert, Finset.mem_filter_univ, Function.update_apply,
        Function.update_apply]
      by_cases hmj : m = j
      · subst hmj
        by_cases hm0 : c m = 0 <;> simp [hm0, hsign]
      · by_cases hmi : m = i
        · subst hmi
          by_cases hj0 : c j = 0 <;> simp [hj0, hi0, hmj]
        · by_cases hj0 : c j = 0 <;> simp [hj0, hmj, hmi]
    rw [hinsert, Finset.card_insert_of_notMem, ih]
    rw [Finset.mem_filter_univ, not_not]
    split
    · assumption
    · exact hi0

theorem unique (h : Shuffled stream k p c) (h' : Shuffled stream k p' c') : p = p' ∧ c = c' := by
  induction h generalizing p' c' with
  | start =>
    cases h'
    exact ⟨rfl, rfl⟩
  | draw _ hi hplace hj ih =>
    cases h' with
    | draw h' hi' hplace' hj' =>
      obtain ⟨rfl, rfl⟩ := ih h'
      obtain rfl := Fin.ext (hi.trans hi'.symm)
      obtain rfl := hplace.unique hplace'
      obtain rfl := Fin.ext (hj.trans hj'.symm)
      exact ⟨rfl, rfl⟩

end Shuffled

/-! ## Draws from blocks -/

section Draws

variable {X : Xof 136} {input : Bytes} {i p : ℕ} {s : X.State} {pending : Bytes}

theorem exists_reads_dropWhile (h : X.Reads input p s pending) :
    ∃ p', p ≤ p' ∧ p' + (pending.dropWhile fun b => i < b.toNat).length = p + pending.length ∧
      X.Reads input p' s (pending.dropWhile fun b => i < b.toNat) ∧
        ∀ m, p ≤ m → m < p' → i < (X.stream input m).toNat := by
  let skipped := pending.takeWhile fun b => i < b.toNat
  have hsplit : skipped ++ pending.dropWhile (fun b => i < b.toNat) = pending :=
    List.takeWhile_append_dropWhile
  have hlength := congrArg List.length hsplit
  rw [List.length_append] at hlength
  rw [← hsplit] at h
  refine ⟨p + skipped.length, Nat.le_add_right _ _, by omega, h.consume, fun m hm hm' => ?_⟩
  have hbyte := h.getElem_append (k := m - p) (by omega)
  have hlarge := List.mem_takeWhile_imp (List.getElem_mem (by omega : m - p < skipped.length))
  rw [hbyte, Nat.add_sub_cancel' hm] at hlarge
  exact of_decide_eq_true hlarge

/-- **A draw finds the next byte of the stream that is at most `i`**, whatever blocks it fetches. -/
theorem exists_place_of_nextAtMost {fuel : ℕ} (hr : X.Reads input p s pending) {b : UInt8} {s' : X.State}
    {rest : Bytes} (h : nextAtMost X i fuel s pending = some (b, s', rest)) :
    ∃ place, IsLeast {m | p ≤ m ∧ (X.stream input m).toNat ≤ i} place ∧ b = X.stream input place ∧
      X.Reads input (place + 1) s' rest := by
  fun_induction nextAtMost X i fuel s pending generalizing p with
  | case1 fuel s pending b' rest' hdrop =>
    obtain ⟨p', hle, -, hreads, hskip⟩ := exists_reads_dropWhile (i := i) hr
    obtain ⟨rfl, rfl, rfl⟩ : b' = b ∧ s = s' ∧ rest' = rest := by simpa using h
    have hsmall := List.head_dropWhile_not (fun b : UInt8 => decide (i < b.toNat)) (l := pending)
      (by rw [hdrop]; exact List.cons_ne_nil _ _)
    rw [hdrop] at hreads
    simp only [hdrop, List.head_cons, decide_eq_false_iff_not, not_lt, hreads.head_eq] at hsmall
    have hread : X.Reads input p' s ([b'] ++ rest') := hreads
    refine ⟨p', ⟨⟨hle, hsmall⟩, fun m hm => ?_⟩, hreads.head_eq, hread.consume⟩
    by_contra hlt
    exact absurd (hskip m hm.1 (not_le.1 hlt)) (not_lt.2 hm.2)
  | case2 => exact absurd h (by simp)
  | case3 s pending fuel hdrop ih =>
    obtain ⟨p', hle, -, hreads, hskip⟩ := exists_reads_dropWhile (i := i) hr
    rw [hdrop] at hreads
    obtain ⟨place, hplace, hb, hrest⟩ := ih hreads.fetch h
    refine ⟨place, ⟨⟨hle.trans hplace.1.1, hplace.1.2⟩, fun m hm => hplace.2 ⟨?_, hm.2⟩⟩, hb, hrest⟩
    by_contra hlt
    exact absurd (hskip m hm.1 (not_le.1 hlt)) (not_lt.2 hm.2)

theorem isSome_nextAtMost {fuel m : ℕ} (hr : X.Reads input p s pending) (hm : p ≤ m)
    (hi : (X.stream input m).toNat ≤ i) (hlt : m < p + pending.length + 136 * fuel) :
    (nextAtMost X i fuel s pending).isSome := by
  fun_induction nextAtMost X i fuel s pending generalizing p with
  | case1 => rfl
  | case2 s pending hdrop =>
    obtain ⟨p', -, hlength, -, hskip⟩ := exists_reads_dropWhile (i := i) hr
    rw [hdrop, List.length_nil] at hlength
    exact absurd (hskip m hm (by omega)) (not_lt.2 hi)
  | case3 s pending fuel hdrop ih =>
    obtain ⟨p', -, hlength, hreads, hskip⟩ := exists_reads_dropWhile (i := i) hr
    rw [hdrop] at hreads hlength
    rw [List.length_nil] at hlength
    refine ih hreads.fetch ?_ ?_
    · by_contra hlt'
      exact absurd (hskip m hm (not_le.1 hlt')) (not_lt.2 hi)
    · rw [Vector.length_toList, Params.shake256Rate]
      omega

end Draws

/-! ## The sampler -/

section Sampler

variable {X : Xof 136} {input : Bytes} {k p patience : ℕ} {c : Fin 256 → ℤ} {w w' : Shuffle X}

/-- The sampler is where the shuffle on the stream is after `k` draws. -/
structure Follows (input : Bytes) (k p : ℕ) (c : Fin 256 → ℤ) (w : Shuffle X) : Prop where
  coeffs : ∀ m, (w.coeffs.get m).toInt = c m
  signs : ∀ m, k + m < 64 →
    w.signs.toNat.testBit m = (X.stream input ((k + m) / 8)).toNat.testBit ((k + m) % 8)
  reads : X.Reads input p w.state w.pending

/-- What the sampler begins with. -/
def Shuffle.initial (X : Xof 136) (input : Bytes) : Shuffle X :=
  let s := X.start input
  let first := (X.block s).toList
  ⟨.replicate 256 0, Bytes.toUInt64 first, X.next s, first.drop 8⟩

variable (X input) in
theorem follows_initial : Follows input 0 8 (fun _ => 0) (Shuffle.initial X input) := by
  let first := (X.block (X.start input)).toList
  have hlength : first.length = 136 := Vector.length_toList
  have hreads : X.Reads input 0 (X.next (X.start input)) (first.take 8 ++ first.drop 8) := by
    rw [List.take_append_drop]
    exact (Xof.Reads.start X input).fetch
  refine ⟨fun m => ?_, fun m hm => ?_, ?_⟩
  · have hzero : (Vector.replicate 256 (0 : Int32)).get m = 0 := Vector.getElem_replicate m.isLt
    change ((Vector.replicate 256 (0 : Int32)).get m).toInt = 0
    rw [hzero]
    rfl
  · have hm8 : m / 8 < (first.take 8).length := by
      rw [List.length_take]
      omega
    have hbyte := hreads.getElem_append hm8
    change (Bytes.toUInt64 first).toNat.testBit m = _
    rw [BitStream.toNat_toUInt64, BitStream.testBit_ofBytes, List.getD_eq_getElem _ _ hm8, hbyte,
      Nat.zero_add, Nat.zero_add]
  · have := hreads.consume
    rwa [List.length_take, hlength] at this

theorem toInt_sign (signs : UInt64) : (1 - 2 * (signs &&& 1).toUInt32.toInt32 : Int32).toInt =
    if signs.toNat.testBit 0 then -1 else 1 := by
  have hbit : signs.toNat.testBit 0 = decide ((signs &&& 1).toNat = 1) := by
    rw [Nat.testBit_zero, UInt64.toNat_and]
    congr 2
    exact (Nat.and_one_is_mod _).symm
  rcases and_one_eq signs with h | h <;> rw [hbit, h] <;> decide

/-- **A step of the sampler is a draw of the shuffle.** -/
theorem Follows.step (hf : Follows input k p c w) (hk : k < 64) {i : Fin 256}
    (h : w.step X patience i = some w') :
    ∃ place j, IsLeast {m | p ≤ m ∧ (X.stream input m).toNat ≤ i} place ∧
      (j : Fin 256).val = (X.stream input place).toNat ∧
        Follows input (k + 1) (place + 1)
          (Function.update (Function.update c i (c j)) j (streamSign (X.stream input) k)) w' := by
  unfold Shuffle.step at h
  split at h
  · exact absurd h (by simp)
  rename_i b state pending hnext
  obtain ⟨place, hplace, hb, hreads⟩ := exists_place_of_nextAtMost hf.reads hnext
  let j : Fin 256 := ⟨b.toNat, b.toNat_lt⟩
  refine ⟨place, j, hplace, congrArg UInt8.toNat hb, ?_⟩
  rw [← Option.some_inj.1 h]
  refine ⟨fun m => ?_, fun m hm => ?_, hreads⟩
  · change ((⟨(w.coeffs.set i w.coeffs[j]).set j _⟩ : Poly .plain).number m).toInt = _
    have hget : w.coeffs[j] = w.coeffs.get j := rfl
    have hsign := hf.signs 0 (by omega)
    rw [number_set, number_set, hget, Function.update_apply, Function.update_apply, ← hf.coeffs,
      ← hf.coeffs]
    simp only [Fin.ext_iff, eq_comm (a := m.val)]
    split
    · rw [toInt_sign, hsign]
      rfl
    · split <;> rfl
  · have hshift : (w.signs >>> 1).toNat = w.signs.toNat >>> 1 := UInt64.toNat_shiftRight _ _
    rw [hshift, Nat.testBit_shiftRight, hf.signs _ (by omega), Nat.add_assoc]

theorem Follows.isSome_step (hf : Follows input k p c w) {i : Fin 256} {m : ℕ} (hm : p ≤ m)
    (hi : (X.stream input m).toNat ≤ i) (hlt : m < p + 136 * patience) :
    (w.step X patience i).isSome := by
  have hsome : (nextAtMost X i patience w.state w.pending).isSome :=
    isSome_nextAtMost hf.reads hm hi (by omega)
  obtain ⟨⟨b, state, pending⟩, hnext⟩ := Option.isSome_iff_exists.1 hsome
  rw [Shuffle.step, hnext]
  rfl

theorem take_succ_lastPositions (hk : k < 60) :
    lastPositions.take (k + 1) = lastPositions.take k ++ [⟨196 + k, by omega⟩] := by
  rw [List.take_succ_eq_append_getElem (by simpa [lastPositions] using hk)]
  simp [lastPositions]

/-- **What the sampler has done after `k` steps is the shuffle on the stream.** -/
theorem exists_shuffled (hk : k ≤ 60)
    (h : (lastPositions.take k).foldlM (Shuffle.step X patience) (Shuffle.initial X input) = some w) :
    ∃ p c, Shuffled (X.stream input) k p c ∧ Follows input k p c w := by
  induction k generalizing w with
  | zero =>
    obtain rfl : Shuffle.initial X input = w := Option.some_inj.1 h
    exact ⟨8, _, .start, follows_initial X input⟩
  | succ k ih =>
    rw [take_succ_lastPositions hk, List.foldlM_append] at h
    obtain ⟨v, hv, h⟩ := Option.bind_eq_some_iff.1 h
    obtain ⟨p, c, hshuffled, hfollows⟩ := ih (by omega) hv
    obtain ⟨place, j, hplace, hj, hnext⟩ := hfollows.step (by omega) (by simpa using h)
    exact ⟨_, _, hshuffled.draw rfl hplace hj, hnext⟩

/-- **The sampler stops where the shuffle does**, given enough blocks. -/
theorem isSome_foldlM_of_shuffled (h : Shuffled (X.stream input) k p c) (hk : k ≤ 60)
    (hp : p ≤ patience) :
    ((lastPositions.take k).foldlM (Shuffle.step X patience) (Shuffle.initial X input)).isSome := by
  induction h with
  | start => rfl
  | @draw k p place c i j h hi hplace hj ih =>
    obtain ⟨hle, hbyte⟩ := hplace.1
    obtain ⟨w, hw⟩ := Option.isSome_iff_exists.1 (ih (by omega) (by omega))
    obtain ⟨p', c', h', hfollows⟩ := exists_shuffled (by omega) hw
    obtain ⟨rfl, rfl⟩ := h.unique h'
    have hstep : (w.step X patience i).isSome := hfollows.isSome_step hle hbyte (by omega)
    have hi : i = ⟨196 + k, by omega⟩ := Fin.ext hi
    rw [take_succ_lastPositions hk, List.foldlM_append, hw, ← hi]
    simpa using hstep

end Sampler

end Sampler

namespace Poly

open Sampler

variable {O : Oracle} {hash : Bytes} {c : Poly .plain}

theorem challenge_eq_map (O : Oracle) (hash : Bytes) : challenge O hash =
    (lastPositions.foldlM (Shuffle.step O.shake256 O.patience) (Shuffle.initial O.shake256 hash)).map
      fun w => ⟨w.coeffs⟩ := rfl

theorem exists_shuffled_challenge (h : challenge O hash = some c) :
    ∃ p, Shuffled (O.shake256.stream hash) 60 p fun m => (c.number m).toInt := by
  rw [challenge_eq_map] at h
  obtain ⟨w, hw, rfl⟩ := Option.map_eq_some_iff.1 h
  obtain ⟨p, f, hshuffled, hfollows⟩ := exists_shuffled (k := 60) le_rfl hw
  obtain rfl : f = fun m => (w.coeffs.get m).toInt := funext fun m => (hfollows.coeffs m).symm
  exact ⟨p, hshuffled⟩

theorem isSome_challenge_of_shuffled {p : ℕ} {f : Fin 256 → ℤ}
    (h : Shuffled (O.shake256.stream hash) 60 p f) (hp : p ≤ O.patience) :
    (challenge O hash).isSome := by
  rw [challenge_eq_map, Option.isSome_map]
  exact isSome_foldlM_of_shuffled h le_rfl hp

/-- **A challenge has 60 nonzero coefficients.** -/
theorem weight_challenge (h : challenge O hash = some c) : c.weight = 60 := by
  obtain ⟨p, hshuffled⟩ := exists_shuffled_challenge h
  rw [weight_eq_card, ← hshuffled.card_nonzero]
  refine congrArg Finset.card (Finset.filter_congr fun j _ => ?_)
  rw [Ne, Ne, ← Int32.toInt_inj]
  rfl

theorem zero_or_sign_of_challenge (h : challenge O hash = some c) (j : Fin 256) :
    c.number j = 0 ∨ c.number j = 1 ∨ c.number j = -1 := by
  obtain ⟨p, hshuffled⟩ := exists_shuffled_challenge h
  simp only [← Int32.toInt_inj]
  exact hshuffled.zero_or_sign j

end Poly

/-- **The challenge sampler shuffles signs in place.** For every hash and every stream, it finds `c`,
given enough blocks, exactly if `c` is what 60 draws of the shuffle on the stream leave; and what it
finds consists of 60 signs and zeros. -/
theorem challenge_shuffles_stream (O : Oracle) (hash : Bytes) (c : Poly .plain) :
    ((∃ patience, Poly.challenge { O with patience := patience } hash = some c) ↔
      ∃ p, Sampler.Shuffled (O.shake256.stream hash) 60 p fun m => (c.number m).toInt) ∧
    (Poly.challenge O hash = some c →
      (∃ p, Sampler.Shuffled (O.shake256.stream hash) 60 p fun m => (c.number m).toInt) ∧
        c.weight = 60 ∧ ∀ m, c.number m = 0 ∨ c.number m = 1 ∨ c.number m = -1) := by
  refine ⟨⟨?_, ?_⟩, fun h =>
    ⟨Poly.exists_shuffled_challenge h, Poly.weight_challenge h, Poly.zero_or_sign_of_challenge h⟩⟩
  · rintro ⟨patience, h⟩
    exact Poly.exists_shuffled_challenge (O := { O with patience := patience }) h
  · rintro ⟨p, h⟩
    let O' : Oracle := { O with patience := p }
    have hsome : (Poly.challenge O' hash).isSome := Poly.isSome_challenge_of_shuffled h le_rfl
    obtain ⟨c', hc'⟩ := Option.isSome_iff_exists.1 hsome
    obtain ⟨p', h'⟩ := Poly.exists_shuffled_challenge hc'
    have heq : (fun m => (c.number m).toInt) = fun m => (c'.number m).toInt := (h.unique h').2
    exact ⟨p, hc'.trans (congrArg some (Poly.ext_number fun m =>
      Int32.toInt_inj.1 (congrFun heq m).symm))⟩

/-- The streams of another function behind a block of one byte. -/
def Xof.behind {rate : ℕ} (X : Xof rate) (b : UInt8) : Xof rate where
  rate_pos := X.rate_pos
  State := Bool × X.State
  start input := (false, X.start input)
  block s := if s.1 then X.block s.2 else .replicate rate b
  next s := (true, if s.1 then X.next s.2 else s.2)

/-- Streams that open with a block of the largest byte: all signs are negative, and the first draw has
to fetch a block. -/
def Oracle.late : Oracle where
  shake128 := Oracle.constant.shake128
  shake256 := Oracle.constant.shake256.behind 0xff
  patience := 1

/-- A draw over the boundary of a block. -/
theorem challenge_shuffles_stream_late :
    Poly.challenge { Oracle.late with patience := 0 } [] = none ∧
      ∃ c, Poly.challenge .late [] = some c ∧
        (∃ p, Sampler.Shuffled (Oracle.late.shake256.stream []) 60 p fun m => (c.number m).toInt) ∧
          c.weight = 60 ∧ ∀ m, c.number m = 0 ∨ c.number m = 1 ∨ c.number m = -1 := by
  have hstops : (Poly.challenge .late []).isSome := by decide +kernel
  obtain ⟨c, hc⟩ := Option.isSome_iff_exists.1 hstops
  exact ⟨by decide +kernel, c, hc, (challenge_shuffles_stream .late [] c).2 hc⟩

end LatticeSignature
