import LatticeSignature.Proofs.Packed

/-!
# Ranges of what is sampled

A sampler skips candidates that are out of range, and the shuffle only moves signs about. Whatever
the streams are, a sampled polynomial lies in its range.

* **`Sampler.invariant_moreUniform`**, **`Sampler.invariant_moreEta`**: what each block preserves holds
  after all of them.
* **`Matrix.within_expand`**: entries of the public matrix lie in `[0, q)`.
* **`PolyVec.within_uniformEta`**: short secrets lie in `[-2, 2]`.
* `PolyVec.within_uniformGamma1`: masks lie in `(-gamma1, gamma1]`.
* **`Poly.within_challenge`**: challenges have coefficients -1, 0 and 1.
* `Oracle.repeating`: streams of one byte, on which every sampler stops; `Oracle.constant` and
  `Oracle.reluctant`, under which the first mask of every signature is turned down.
-/

namespace LatticeSignature

namespace Sampler

/-- All listed numbers lie between two bounds. -/
def Bounded (l : List Int32) (lo hi : ℤ) : Prop := ∀ c ∈ l, lo ≤ c.toInt ∧ c.toInt ≤ hi

theorem Bounded.append {l l' : List Int32} {lo hi : ℤ} (h : Bounded l lo hi) (h' : Bounded l' lo hi) :
    Bounded (l ++ l') lo hi :=
  fun c hc => (List.mem_append.1 hc).elim (h c) (h' c)

theorem Bounded.within_ofList {d : Domain} {l : List Int32} {lo hi : ℤ} (h : Bounded l lo hi)
    (hlo : lo ≤ 0) (hhi : 0 ≤ hi) : (Poly.ofList l : Poly d).Within lo hi := by
  intro j
  rw [Poly.number_ofList]
  by_cases hl : j < l.length
  · rw [List.getD_eq_getElem _ _ hl]
    exact h _ (List.getElem_mem hl)
  · rw [List.getD_eq_default _ _ (by omega)]
    exact ⟨hlo, hhi⟩

/-! ## Matrix entries -/

/-- A candidate is the number of its low 23 bits: no sign is read from them. -/
theorem toInt_uniformCandidate (a b c : UInt8) : (uniformCandidate a b c).toInt =
    ((a.toUInt32 ||| (b.toUInt32 <<< 8) ||| (c.toUInt32 <<< 16)) &&& 0x7fffff).toNat := by
  obtain ⟨x, hx⟩ : ∃ x, a.toUInt32 ||| (b.toUInt32 <<< 8) ||| (c.toUInt32 <<< 16) = x := ⟨_, rfl⟩
  have hle : (x &&& 0x7fffff).toNat ≤ 8388607 := by
    rw [UInt32.toNat_and]
    exact Nat.and_le_right
  have h := BitVec.toInt_eq_toNat_cond (x &&& 0x7fffff).toInt32.toBitVec
  rw [Int32.toInt_toBitVec] at h
  change (x &&& 0x7fffff).toInt32.toInt = if 2 * (x &&& 0x7fffff).toNat < 4294967296 then _ else _ at h
  rw [if_pos (by omega)] at h
  rw [uniformCandidate, hx]
  exact h

theorem bounded_acceptUniform (room : ℕ) (buf : Bytes) : Bounded (acceptUniform room buf) 0 8380416 := by
  fun_induction acceptUniform room buf with
  | case1 => exact fun c hc => absurd hc List.not_mem_nil
  | case2 room a b c rest t ht ih =>
    intro x hx
    rcases List.mem_cons.1 hx with rfl | hx
    · have h := Int32.lt_iff_toInt_lt.1 ht
      rw [Words.toInt_q] at h
      exact ⟨toInt_uniformCandidate a b c ▸ Int.natCast_nonneg _, by omega⟩
    · exact ih x hx
  | case3 room a b c rest t ht ih => exact ih
  | case4 => exact fun c hc => absurd hc List.not_mem_nil

/-- **What each further block preserves** holds when enough has been found. -/
theorem invariant_moreUniform {X : Xof 168} {P : X.State → Bytes → List Int32 → Prop}
    (hstep : ∀ s rest found, P s rest found → P (X.next s) (carry (rest ++ (X.block s).toList))
      (found ++ acceptUniform (256 - found.length) (rest ++ (X.block s).toList)))
    {fuel : ℕ} {s : X.State} {rest : Bytes} {found out : List Int32} (hP : P s rest found)
    (h : moreUniform X fuel s rest found = some out) : (∃ s rest, P s rest out) ∧ ¬out.length < 256 := by
  induction fuel generalizing s rest found with
  | zero =>
    rw [moreUniform] at h
    split at h
    · exact absurd h (by simp)
    · exact Option.some_inj.1 h ▸ ⟨⟨s, rest, hP⟩, ‹_›⟩
  | succ fuel ih =>
    rw [moreUniform] at h
    split at h
    · exact ih (hstep s rest found hP) h
    · exact Option.some_inj.1 h ▸ ⟨⟨s, rest, hP⟩, ‹_›⟩

theorem bounded_moreUniform {X : Xof 168} {fuel : ℕ} {s : X.State} {rest : Bytes}
    {found out : List Int32} (hf : Bounded found 0 8380416)
    (h : moreUniform X fuel s rest found = some out) : Bounded out 0 8380416 := by
  obtain ⟨⟨_, _, hout⟩, -⟩ := invariant_moreUniform (P := fun _ _ found => Bounded found 0 8380416)
    (fun _ _ _ hb => hb.append (bounded_acceptUniform _ _)) hf h
  exact hout

/-! ## Short secrets -/

theorem etaCoefficient_range {t : UInt8} (h : t < 15) :
    -2 ≤ (etaCoefficient t).toInt ∧ (etaCoefficient t).toInt ≤ 2 := by
  have hall : ∀ n < 15, -2 ≤ (etaCoefficient (UInt8.ofNat n)).toInt ∧
      (etaCoefficient (UInt8.ofNat n)).toInt ≤ 2 := by decide +kernel
  have hn : t.toNat < 15 := UInt8.lt_iff_toNat_lt.1 h
  have := hall t.toNat hn
  rwa [UInt8.ofNat_toNat] at this

theorem bounded_acceptEta (room : ℕ) (ts : Bytes) : Bounded (acceptEta room ts) (-2) 2 := by
  fun_induction acceptEta room ts with
  | case1 => exact fun c hc => absurd hc List.not_mem_nil
  | case2 => exact fun c hc => absurd hc List.not_mem_nil
  | case3 room t ts ht ih =>
    intro x hx
    rcases List.mem_cons.1 hx with rfl | hx
    · exact etaCoefficient_range ht
    · exact ih x hx
  | case4 room t ts ht ih => exact ih

theorem invariant_moreEta {X : Xof 136} {P : X.State → List Int32 → Prop}
    (hstep : ∀ s found, P s found →
      P (X.next s) (found ++ acceptEta (256 - found.length) (nibbles (X.block s).toList)))
    {fuel : ℕ} {s : X.State} {found out : List Int32} (hP : P s found)
    (h : moreEta X fuel s found = some out) : (∃ s, P s out) ∧ ¬out.length < 256 := by
  induction fuel generalizing s found with
  | zero =>
    rw [moreEta] at h
    split at h
    · exact absurd h (by simp)
    · exact Option.some_inj.1 h ▸ ⟨⟨s, hP⟩, ‹_›⟩
  | succ fuel ih =>
    rw [moreEta] at h
    split at h
    · exact ih (hstep s found hP) h
    · exact Option.some_inj.1 h ▸ ⟨⟨s, hP⟩, ‹_›⟩

theorem bounded_moreEta {X : Xof 136} {fuel : ℕ} {s : X.State} {found out : List Int32}
    (hf : Bounded found (-2) 2) (h : moreEta X fuel s found = some out) : Bounded out (-2) 2 := by
  obtain ⟨⟨_, hout⟩, -⟩ := invariant_moreEta (P := fun _ found => Bounded found (-2) 2)
    (fun _ _ hb => hb.append (bounded_acceptEta _ _)) hf h
  exact hout

/-! ## Challenges -/

theorem and_one_eq (signs : UInt64) : signs &&& 1 = 0 ∨ signs &&& 1 = 1 :=
  (Words.and_one_zero_or_one signs.toBitVec).imp UInt64.eq_of_toBitVec_eq UInt64.eq_of_toBitVec_eq

theorem sign_range (signs : UInt64) :
    -1 ≤ (1 - 2 * (signs &&& 1).toUInt32.toInt32 : Int32).toInt ∧
      (1 - 2 * (signs &&& 1).toUInt32.toInt32 : Int32).toInt ≤ 1 := by
  rcases and_one_eq signs with h | h <;> rw [h] <;> decide

variable {X : Xof 136}

theorem number_set {d : Domain} (v : Vector Int32 256) {i : ℕ} (hi : i < 256) (c : Int32)
    (k : Fin 256) :
    (⟨v.set i c hi⟩ : Poly d).number k = if i = k then c else (⟨v⟩ : Poly d).number k :=
  Vector.getElem_set hi k.isLt

theorem Shuffle.within_step {patience : ℕ} {w w' : Shuffle X} {i : Fin 256}
    (hw : (⟨w.coeffs⟩ : Poly .plain).Within (-1) 1) (h : w.step X patience i = some w') :
    (⟨w'.coeffs⟩ : Poly .plain).Within (-1) 1 := by
  unfold Shuffle.step at h
  split at h
  · exact absurd h (by simp)
  · rename_i b state pending _
    rw [← Option.some_inj.1 h]
    intro k
    rw [number_set]
    split
    · exact sign_range w.signs
    · rw [number_set]
      split
      · exact hw ⟨b.toNat, b.toNat_lt⟩
      · exact hw k

theorem Shuffle.within_foldlM {patience : ℕ} {l : List (Fin 256)} {w w' : Shuffle X}
    (hw : (⟨w.coeffs⟩ : Poly .plain).Within (-1) 1)
    (h : l.foldlM (Shuffle.step X patience) w = some w') :
    (⟨w'.coeffs⟩ : Poly .plain).Within (-1) 1 := by
  induction l generalizing w with
  | nil => exact Option.some_inj.1 h ▸ hw
  | cons i l ih =>
    rw [List.foldlM_cons] at h
    obtain ⟨v, hv, h⟩ := Option.bind_eq_some_iff.1 h
    exact ih (Shuffle.within_step hw hv) h

end Sampler

/-! ## Sampled polynomials and vectors -/

open Sampler

namespace Poly

variable {O : Oracle} {seed : Bytes} {nonce : UInt16}

theorem within_uniform {p : Poly .transformed} (h : uniform O seed nonce = some p) :
    p.Within 0 8380416 := by
  obtain ⟨l, hl, rfl⟩ := Option.map_eq_some_iff.1 h
  exact (bounded_moreUniform (bounded_acceptUniform _ _) hl).within_ofList le_rfl (by norm_num)

theorem within_uniformEta {p : Poly .plain} (h : uniformEta O seed nonce = some p) :
    p.Within (-2) 2 := by
  obtain ⟨l, hl, rfl⟩ := Option.map_eq_some_iff.1 h
  exact (bounded_moreEta (bounded_acceptEta _ _) hl).within_ofList (by norm_num) (by norm_num)

theorem within_uniformGamma1 : (uniformGamma1 O seed nonce).Within (-524287) 524288 :=
  unpack_z_within _

/-- **A challenge has coefficients -1, 0 and 1.** -/
theorem within_challenge {hash : Bytes} {c : Poly .plain} (h : challenge O hash = some c) :
    c.Within (-1) 1 := by
  obtain ⟨w, hw, rfl⟩ := Option.map_eq_some_iff.1 h
  refine Shuffle.within_foldlM (fun j => ?_) hw
  have : (Vector.replicate 256 (0 : Int32)).get j = 0 := Vector.getElem_replicate j.isLt
  rw [Poly.number, this]
  decide

end Poly

theorem Matrix.within_expand {O : Oracle} {rho : Bytes} {A : Matrix}
    (h : Matrix.expand O rho = some A) : A.Within 0 8380416 :=
  fun i j => Poly.within_uniform (collect?_eq_some_iff.1 (collect?_eq_some_iff.1 h i) j)

theorem PolyVec.within_uniformEta {O : Oracle} {n : ℕ} {seed : Bytes} {nonce : UInt16}
    {v : PolyVec .plain n} (h : PolyVec.uniformEta O n seed nonce = some v) : v.Within (-2) 2 :=
  fun i => Poly.within_uniformEta (collect?_eq_some_iff.1 h i)

theorem PolyVec.within_uniformGamma1 (O : Oracle) (seed : Bytes) (nonce : UInt16) :
    (PolyVec.uniformGamma1 O seed nonce).Within (-524287) 524288 := by
  intro i
  have : (PolyVec.uniformGamma1 O seed nonce).get i =
    Poly.uniformGamma1 O seed (7 * nonce + i.val.toUInt16) := Vector.getElem_ofFn _
  rw [this]
  exact Poly.within_uniformGamma1

/-! ## Streams of one byte -/

/-- The function whose streams repeat one byte each, which depends on the input. -/
def Xof.repeating (rate : ℕ) (h : 0 < rate) (byte : Bytes → UInt8) : Xof rate :=
  ⟨h, UInt8, byte, fun b => .replicate rate b, id⟩

/-- The byte of the streams below. Both half bytes of it give the short coefficient 2. -/
def Oracle.byteOf (zero : Bytes → Bool) (input : Bytes) : UInt8 := if zero input then 0 else 0x55

/-- Streams of one byte: the same for all entries of the matrix, and one of two bytes for everything
else. No sampler needs another block of them. -/
def Oracle.repeating (zero : Bytes → Bool) : Oracle :=
  ⟨.repeating 168 (by norm_num) fun _ => 0x32, .repeating 136 (by norm_num) (byteOf zero), 0⟩

/-- The same byte for all inputs. -/
abbrev Oracle.constant : Oracle := .repeating fun _ => false

/-- Zeros for inputs whose byte 64 is below 7: behind the seed of a mask that is the low byte of the nonce,
and the nonces of a first round are the numbers below 7. -/
abbrev Oracle.reluctant : Oracle := .repeating fun input => input.getD 64 0 < 7

theorem Oracle.byteOf_eq_or (zero : Bytes → Bool) (input : Bytes) :
    byteOf zero input = 0 ∨ byteOf zero input = 0x55 := by
  unfold byteOf
  cases zero input
  · exact Or.inr rfl
  · exact Or.inl rfl

theorem Xof.read_repeating (rate : ℕ) (h : 0 < rate) (byte : Bytes → UInt8) (k : ℕ) (b : UInt8) :
    ((Xof.repeating rate h byte).read k b).1 = List.replicate (rate * k) b := by
  induction k with
  | zero => rfl
  | succ k ih =>
    have hblock : ((Xof.repeating rate h byte).block b).toList = List.replicate rate b :=
      Vector.toList_replicate
    change ((Xof.repeating rate h byte).block b).toList ++ ((Xof.repeating rate h byte).read k b).1 = _
    rw [hblock, ih, List.replicate_append_replicate, Nat.mul_succ, Nat.add_comm]

theorem Oracle.squeeze_repeating (zero : Bytes → Bool) (input : Bytes) (n : ℕ) :
    ((repeating zero).shake256.squeeze input n).bytes = List.replicate n (byteOf zero input) := by
  have hread : ((repeating zero).shake256.read (n / 136 + 1) (byteOf zero input)).1 =
      List.replicate (136 * (n / 136 + 1)) (byteOf zero input) := Xof.read_repeating ..
  change ((repeating zero).shake256.read (n / 136 + 1) (byteOf zero input)).1.take n = _
  rw [hread, List.take_replicate, Nat.min_eq_left (Nat.lt_mul_div_succ n (by norm_num)).le]

namespace Sampler

theorem acceptUniform_replicate {b : UInt8} (hb : uniformCandidate b b b < Params.q) (room n : ℕ)
    (h : 3 * room ≤ n) : acceptUniform room (List.replicate n b) =
      List.replicate room (uniformCandidate b b b) := by
  induction room generalizing n with
  | zero => rw [acceptUniform, List.replicate_zero]
  | succ room ih =>
    obtain ⟨m, rfl⟩ : ∃ m, n = m + 3 := ⟨n - 3, by omega⟩
    rw [List.replicate_succ, List.replicate_succ, List.replicate_succ, acceptUniform,
      if_pos hb, ih m (by omega), List.replicate_succ]

theorem nibbles_replicate {b t : UInt8} (hlow : b &&& 0x0f = t) (hhigh : b >>> 4 = t) (n : ℕ) :
    nibbles (List.replicate n b) = List.replicate (2 * n) t := by
  induction n with
  | zero => rfl
  | succ n ih =>
    rw [List.replicate_succ, nibbles, List.flatMap_cons, ← nibbles, ih, Nat.mul_succ, hlow, hhigh]
    rfl

theorem acceptEta_replicate {t : UInt8} (ht : t < 15) (room n : ℕ) (h : room ≤ n) :
    acceptEta room (List.replicate n t) = List.replicate room (etaCoefficient t) := by
  induction room generalizing n with
  | zero => rw [acceptEta, List.replicate_zero]
  | succ room ih =>
    obtain ⟨m, rfl⟩ : ∃ m, n = m + 1 := ⟨n - 1, by omega⟩
    rw [List.replicate_succ, acceptEta, if_pos ht, ih m (by omega), List.replicate_succ]

theorem acceptEta_byteOf (zero : Bytes → Bool) (input : Bytes) :
    acceptEta 256 (nibbles (List.replicate 136 (Oracle.byteOf zero input))) = List.replicate 256 2 := by
  rcases Oracle.byteOf_eq_or zero input with h | h <;> rw [h]
  · rw [nibbles_replicate (t := 0) (by decide) (by decide), acceptEta_replicate (by decide) _ _ (by norm_num)]
    rfl
  · rw [nibbles_replicate (t := 5) (by decide) (by decide), acceptEta_replicate (by decide) _ _ (by norm_num)]
    rfl

/-- Every drawn position is the same, so that no byte is skipped. -/
theorem isSome_foldlM_step {X : Xof 136} {b : UInt8} (hb : b.toNat ≤ 196) {l : List (Fin 256)}
    {w : Shuffle X} {n : ℕ} (hl : ∀ i ∈ l, 196 ≤ i.val) (hn : l.length ≤ n)
    (hw : w.pending = List.replicate n b) : (l.foldlM (Shuffle.step X 0) w).isSome := by
  induction l generalizing w n with
  | nil => rfl
  | cons i l ih =>
    rw [List.forall_mem_cons] at hl
    obtain ⟨m, rfl⟩ : ∃ m, n = m + 1 := ⟨n - 1, by rw [List.length_cons] at hn; omega⟩
    have hkeep : (decide (i.val < b.toNat)) = false := decide_eq_false (by omega)
    have hdrop : w.pending.dropWhile (fun b => i.val < b.toNat) = b :: List.replicate m b := by
      rw [hw, List.replicate_succ, List.dropWhile_cons, hkeep]
      rfl
    have hnext : nextAtMost X i 0 w.state w.pending = some (b, w.state, List.replicate m b) := by
      unfold nextAtMost
      simp only [hdrop]
    rw [List.foldlM_cons, Shuffle.step, hnext]
    exact ih hl.2 (by simpa using hn) rfl

theorem ofBytes_replicate_div_mod {b : UInt8} {t : ℕ} (hb : b.toNat = 17 * t) (ht : t < 16) (n k : ℕ)
    (h : k < 2 * n) : BitStream.ofBytes (List.replicate n b) / 16 ^ k % 16 = t := by
  induction n generalizing k with
  | zero => omega
  | succ n ih =>
    rw [List.replicate_succ, BitStream.ofBytes_cons, hb]
    match k with
    | 0 => rw [pow_zero, Nat.div_one]; omega
    | 1 =>
      have hdiv : (17 * t + 256 * BitStream.ofBytes (List.replicate n b)) / 16 =
          t + 16 * BitStream.ofBytes (List.replicate n b) := by omega
      rw [pow_one, hdiv, Nat.add_mul_mod_self_left, Nat.mod_eq_of_lt ht]
    | k + 2 =>
      have htail : (17 * t + 256 * BitStream.ofBytes (List.replicate n b)) / 16 ^ 2 =
          BitStream.ofBytes (List.replicate n b) := by omega
      rw [Nat.add_comm k 2, pow_add, ← Nat.div_div_eq_div_mul, htail]
      exact ih k (by omega)

end Sampler

namespace Poly

/-- Five equal half bytes make up each number of a mask. -/
theorem unpack_replicate {b : UInt8} {t : ℕ} (hb : b.toNat = 17 * t) (ht : t < 16) :
    unpack .z (List.replicate 680 b) = flat (524288 - Int32.ofNat (69905 * t)) := by
  refine ext_number fun j => ?_
  rw [number_unpack, PackedForm.code_z, number_flat]
  obtain ⟨N, hN⟩ : ∃ N, BitStream.ofBytes (List.replicate 680 b) / 2 ^ (20 * j.val) = N := ⟨_, rfl⟩
  have hdigit : ∀ i < 5, N / 16 ^ i % 16 = t := by
    intro i hi
    have hpow : 2 ^ (20 * j.val) * 16 ^ i = 16 ^ (5 * j.val + i) := by
      rw [pow_add, pow_mul, pow_mul]
      norm_num
    rw [← hN, Nat.div_div_eq_div_mul, hpow]
    exact ofBytes_replicate_div_mod hb ht 680 _ (by omega)
  have hfive : N % 16 ^ 5 = 69905 * t := by
    rw [Nat.mod_pow_succ, Nat.mod_pow_succ, Nat.mod_pow_succ, Nat.mod_pow_succ, Nat.mod_pow_succ,
      hdigit 0 (by norm_num), hdigit 1 (by norm_num), hdigit 2 (by norm_num), hdigit 3 (by norm_num),
      hdigit 4 (by norm_num), pow_zero, Nat.mod_one]
    ring
  rw [hN, show 2 ^ 20 = 16 ^ 5 by norm_num, hfive]

section Repeating

variable (zero : Bytes → Bool) (seed : Bytes) (nonce : UInt16)

theorem ofList_replicate {d : Domain} (c : Int32) : (ofList (List.replicate 256 c) : Poly d) = flat c := by
  refine ext_number fun j => ?_
  rw [number_ofList, number_flat, List.getD_replicate _ j.isLt]

theorem uniform_repeating : uniform (.repeating zero) seed nonce = some (flat 0x323232) := by
  have hbuf : ((Oracle.repeating zero).shake128.read 5 (0x32 : UInt8)).1 = List.replicate 840 0x32 :=
    Xof.read_repeating ..
  unfold uniform
  change (moreUniform _ 0 _ _ (acceptUniform 256
    ((Oracle.repeating zero).shake128.read 5 (0x32 : UInt8)).1)).map ofList = _
  rw [hbuf, acceptUniform_replicate (by decide) _ _ (by norm_num), moreUniform,
    if_neg (by rw [List.length_replicate]; norm_num)]
  exact congrArg some (ofList_replicate _)

theorem uniformEta_repeating : uniformEta (.repeating zero) seed nonce = some (flat 2) := by
  obtain ⟨b, hb⟩ : ∃ b, Oracle.byteOf zero (seed ++ Bytes.ofUInt16 nonce) = b := ⟨_, rfl⟩
  have hblock : ((Oracle.repeating zero).shake256.block b).toList = List.replicate 136 b :=
    Vector.toList_replicate
  unfold uniformEta
  change (moreEta _ 0 _ (acceptEta 256 (nibbles ((Oracle.repeating zero).shake256.block
    (Oracle.byteOf zero (seed ++ Bytes.ofUInt16 nonce))).toList))).map ofList = _
  rw [hb, hblock, ← hb, acceptEta_byteOf, moreEta, if_neg (by rw [List.length_replicate]; norm_num)]
  exact congrArg some (ofList_replicate _)

/-- A stream of zeros makes a mask as large as masks can be. -/
theorem uniformGamma1_repeating : uniformGamma1 (.repeating zero) seed nonce =
    flat (if zero (seed ++ Bytes.ofUInt16 nonce) then 524288 else 174763) := by
  have hbuf : ((Oracle.repeating zero).shake256.read 5
      (Oracle.byteOf zero (seed ++ Bytes.ofUInt16 nonce))).1 =
        List.replicate 680 (Oracle.byteOf zero (seed ++ Bytes.ofUInt16 nonce)) := Xof.read_repeating ..
  change unpack .z ((Oracle.repeating zero).shake256.read 5
    (Oracle.byteOf zero (seed ++ Bytes.ofUInt16 nonce))).1 = _
  rw [hbuf, Oracle.byteOf]
  split
  · exact unpack_replicate (t := 0) rfl (by norm_num)
  · exact unpack_replicate (t := 5) rfl (by norm_num)

theorem isSome_challenge_repeating (hash : Bytes) : (challenge (.repeating zero) hash).isSome := by
  obtain ⟨b, hb⟩ : ∃ b, Oracle.byteOf zero hash = b := ⟨_, rfl⟩
  have hle : b.toNat ≤ 196 := by
    rcases Oracle.byteOf_eq_or zero hash with h | h <;> rw [← hb, h] <;> decide
  have hblock : ((Oracle.repeating zero).shake256.block b).toList = List.replicate 136 b :=
    Vector.toList_replicate
  unfold challenge
  rw [Option.isSome_map]
  refine isSome_foldlM_step hle (n := 128) (fun i hi => ?_) (by simp [lastPositions]) ?_
  · obtain ⟨k, -, rfl⟩ := List.mem_map.1 hi
    exact Nat.le_add_right _ _
  · change (((Oracle.repeating zero).shake256.block (Oracle.byteOf zero hash)).toList).drop 8 = _
    rw [hb, hblock, List.drop_replicate]

end Repeating

end Poly

theorem Matrix.expand_repeating (zero : Bytes → Bool) (rho : Bytes) :
    Matrix.expand (.repeating zero) rho = some (Matrix.flat 0x323232) := by
  refine collect?_eq_some_iff.2 fun i => ?_
  rw [collect?_eq_some_iff]
  intro j
  rw [Poly.uniform_repeating]
  simp [Matrix.flat, PolyVec.flat]

theorem PolyVec.uniformEta_repeating (zero : Bytes → Bool) (n : ℕ) (seed : Bytes) (nonce : UInt16) :
    PolyVec.uniformEta (.repeating zero) n seed nonce = some (PolyVec.flat 2) := by
  refine collect?_eq_some_iff.2 fun i => ?_
  rw [Poly.uniformEta_repeating]
  simp [PolyVec.flat]

@[simp]
theorem PolyVec.get_zero {d : Domain} {n : ℕ} (i : Fin n) : (PolyVec.zero : PolyVec d n).get i = 0 :=
  Vector.getElem_replicate i.isLt

end LatticeSignature
