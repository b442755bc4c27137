import LatticeSignature.BitStream
import Mathlib.Data.Nat.Bitwise
import Mathlib.Tactic.Positivity
import Mathlib.Tactic.Ring

/-!
# Bit streams as numbers

A bit stream is one large number: numbers of `w` bits are its digits to the base `2 ^ w`, and bytes
are its digits to the base 256. Packing and unpacking only cut it in different places.

* `number`: the number whose digits to the base `2 ^ w` are given.
* `testBit_number`, `testBit_ofBytes`: the bits of that number, and of the number that bytes spell.
* **`pack_eq`**: packing writes the bytes of `number`.
* **`unpack_eq`**: unpacking reads the digits of the number that the bytes spell.
* `unpack_pack`: a list of numbers is read as it was written, up to bits beyond the width.
* **`pack_unpack`**: bytes that hold whole numbers are written as they were read.
-/

namespace LatticeSignature.BitStream

/-! ## Numbers and their digits -/

/-- The number with the low `w` bits of each entry as its digits, lowest first. -/
def number (w : ℕ) : List ℕ → ℕ
  | [] => 0
  | v :: vs => v % 2 ^ w + 2 ^ w * number w vs

theorem number_lt (w : ℕ) (vs : List ℕ) : number w vs < 2 ^ (w * vs.length) := by
  induction vs with
  | nil => exact Nat.one_pos
  | cons v vs ih =>
    rw [List.length_cons, Nat.mul_succ, pow_add, number]
    calc v % 2 ^ w + 2 ^ w * number w vs < 2 ^ w * (number w vs + 1) := by rw [Nat.mul_succ]; omega
      _ ≤ 2 ^ w * 2 ^ (w * vs.length) := Nat.mul_le_mul_left _ ih
      _ = 2 ^ (w * vs.length) * 2 ^ w := mul_comm _ _

theorem number_div_mod (w : ℕ) (vs : List ℕ) (i : ℕ) (h : i < vs.length) :
    number w vs / 2 ^ (w * i) % 2 ^ w = vs[i] % 2 ^ w := by
  induction vs generalizing i with
  | nil => exact absurd h (Nat.not_lt_zero i)
  | cons v vs ih =>
    have hpos : 0 < 2 ^ w := by positivity
    cases i with
    | zero =>
      rw [Nat.mul_zero, pow_zero, Nat.div_one, number, Nat.add_mul_mod_self_left, Nat.mod_mod]
      rfl
    | succ i =>
      rw [Nat.mul_succ, Nat.add_comm, pow_add, ← Nat.div_div_eq_div_mul, number,
        Nat.add_mul_div_left _ _ hpos, Nat.div_eq_of_lt (Nat.mod_lt _ hpos), Nat.zero_add,
        ih i (Nat.lt_of_succ_lt_succ h)]
      rfl

theorem number_digits (w n N : ℕ) :
    number w ((List.range n).map fun i => N / 2 ^ (w * i) % 2 ^ w) = N % 2 ^ (w * n) := by
  induction n generalizing N with
  | zero => rw [Nat.mul_zero, pow_zero, Nat.mod_one]; rfl
  | succ n ih =>
    have htail : ((List.range n).map fun i => N / 2 ^ (w * (i + 1)) % 2 ^ w) =
        (List.range n).map fun i => N / 2 ^ w / 2 ^ (w * i) % 2 ^ w := by
      refine List.map_congr_left fun i _ => ?_
      rw [Nat.div_div_eq_div_mul, ← pow_add, Nat.mul_succ, Nat.add_comm]
    rw [List.range_succ_eq_map, List.map_cons, List.map_map]
    change number w (_ :: (List.range n).map fun i => N / 2 ^ (w * (i + 1)) % 2 ^ w) = _
    rw [htail, number, ih, Nat.mul_zero, pow_zero, Nat.div_one, Nat.mod_mod, Nat.mul_succ,
      Nat.add_comm (w * n), pow_add, Nat.mod_mul]

theorem testBit_number {w : ℕ} (hw : 0 < w) (vs : List ℕ) (m : ℕ) :
    (number w vs).testBit m = (vs.getD (m / w) 0).testBit (m % w) := by
  induction vs generalizing m with
  | nil => simp [number]
  | cons v vs ih =>
    have hlt : v % 2 ^ w < 2 ^ w := Nat.mod_lt _ (Nat.two_pow_pos w)
    rw [number, Nat.add_comm, Nat.testBit_two_pow_mul_add _ hlt]
    split
    · next hm =>
      rw [Nat.div_eq_of_lt hm, Nat.mod_eq_of_lt hm, Nat.testBit_mod_two_pow, decide_eq_true hm, Bool.true_and]
      rfl
    · next hm =>
      obtain ⟨k, rfl⟩ := Nat.exists_eq_add_of_le (not_lt.1 hm)
      rw [ih, Nat.add_sub_cancel_left, Nat.add_div_left k hw, Nat.add_mod_left, List.getD_cons_succ]

theorem number_map_mod (w : ℕ) (vs : List ℕ) : number w (vs.map (· % 2 ^ w)) = number w vs := by
  induction vs with
  | nil => rfl
  | cons v vs ih => rw [List.map_cons, number, number, ih, Nat.mod_mod]

/-! ## Bytes of a number -/

theorem lowBytes_succ (k a : ℕ) : lowBytes (k + 1) a = a.toUInt8 :: lowBytes k (a / 256) := by
  rw [lowBytes, Nat.shiftRight_eq_div_pow]

theorem toUInt8_mod (a : ℕ) : (a % 256).toUInt8 = a.toUInt8 := by
  apply UInt8.toNat_inj.1
  simp

theorem lowBytes_congr {k a b : ℕ} (h : a % 256 ^ k = b % 256 ^ k) : lowBytes k a = lowBytes k b := by
  induction k generalizing a b with
  | zero => rfl
  | succ k ih =>
    rw [lowBytes_succ, lowBytes_succ]
    rw [pow_succ'] at h
    have h0 : a % 256 = b % 256 := by
      rw [← Nat.mod_mul_right_mod a 256 (256 ^ k), h, Nat.mod_mul_right_mod]
    have h1 : a / 256 % 256 ^ k = b / 256 % 256 ^ k := by
      rw [← Nat.mod_mul_right_div_self, h, Nat.mod_mul_right_div_self]
    rw [ih h1, ← toUInt8_mod a, h0, toUInt8_mod]

theorem lowBytes_add (k l a : ℕ) : lowBytes (k + l) a = lowBytes k a ++ lowBytes l (a / 256 ^ k) := by
  induction k generalizing a with
  | zero => simp [lowBytes]
  | succ k ih =>
    rw [Nat.succ_add, lowBytes_succ, lowBytes_succ, ih, List.cons_append, Nat.div_div_eq_div_mul,
      ← pow_succ']

theorem getElem_lowBytes {k i : ℕ} (a : ℕ) (h : i < (lowBytes k a).length) :
    (lowBytes k a)[i] = (a / 256 ^ i).toUInt8 := by
  induction k generalizing a i with
  | zero => exact absurd h (Nat.not_lt_zero i)
  | succ k ih =>
    cases i with
    | zero => simp [lowBytes]
    | succ i =>
      simp only [lowBytes_succ, List.getElem_cons_succ]
      rw [ih, Nat.div_div_eq_div_mul, ← pow_succ']

theorem ofBytes_cons (b : UInt8) (bs : Bytes) : ofBytes (b :: bs) = b.toNat + 256 * ofBytes bs := by
  rw [ofBytes, Nat.or_comm, ← Nat.shiftLeft_add_eq_or_of_lt (show b.toNat < 2 ^ 8 from b.toNat_lt),
    Nat.shiftLeft_eq]
  ring

theorem ofBytes_lt (bs : Bytes) : ofBytes bs < 256 ^ bs.length := by
  induction bs with
  | nil => exact Nat.one_pos
  | cons b bs ih =>
    have hb := b.toNat_lt
    rw [ofBytes_cons, List.length_cons, pow_succ]
    omega

theorem ofBytes_append (bs cs : Bytes) :
    ofBytes (bs ++ cs) = ofBytes bs + 256 ^ bs.length * ofBytes cs := by
  induction bs with
  | nil => simp [ofBytes]
  | cons b bs ih =>
    rw [List.cons_append, ofBytes_cons, ofBytes_cons, ih, List.length_cons, pow_succ]
    ring

theorem testBit_ofBytes (bs : Bytes) (m : ℕ) :
    (ofBytes bs).testBit m = (bs.getD (m / 8) 0).toNat.testBit (m % 8) := by
  induction bs generalizing m with
  | nil => simp [ofBytes]
  | cons b bs ih =>
    rw [ofBytes, Nat.testBit_or, Nat.testBit_shiftLeft]
    by_cases hm : m < 8
    · rw [decide_eq_false (by omega), Bool.false_and, Bool.or_false, Nat.div_eq_of_lt hm,
        Nat.mod_eq_of_lt hm]
      rfl
    · have hb : b.toNat.testBit m = false :=
        Nat.testBit_lt_two_pow (b.toNat_lt.trans_le (Nat.pow_le_pow_right (by norm_num) (by omega)))
      have hdiv : m / 8 = (m - 8) / 8 + 1 := by omega
      have hmod : m % 8 = (m - 8) % 8 := by omega
      rw [decide_eq_true (by omega), Bool.true_and, hb, Bool.false_or, ih, hdiv, hmod,
        List.getD_cons_succ]

theorem toNat_toUInt64 (b : Bytes) : (Bytes.toUInt64 b).toNat = ofBytes (b.take 8) := by
  have hfold : ∀ l : Bytes, l.length ≤ 8 →
      (l.foldr (fun x (acc : UInt64) => (acc <<< 8) ||| x.toUInt64) 0).toNat = ofBytes l := by
    intro l hl
    induction l with
    | nil => rfl
    | cons x l ih =>
      rw [List.length_cons] at hl
      have hlt : ofBytes l < 256 ^ 7 :=
        (ofBytes_lt l).trans_le (Nat.pow_le_pow_right (by norm_num) (by omega))
      have hshift : ofBytes l <<< 8 < 2 ^ 64 := by
        rw [Nat.shiftLeft_eq]
        omega
      rw [List.foldr_cons, UInt64.toNat_or, UInt64.toNat_shiftLeft, ih (by omega),
        ofBytes, UInt8.toNat_toUInt64, Nat.or_comm]
      congr 1
      exact Nat.mod_eq_of_lt hshift
  exact hfold _ (List.length_take_le 8 b)

theorem ofBytes_lowBytes (k a : ℕ) : ofBytes (lowBytes k a) = a % 256 ^ k := by
  induction k generalizing a with
  | zero => rw [pow_zero, Nat.mod_one]; rfl
  | succ k ih =>
    rw [lowBytes_succ, ofBytes_cons, ih, pow_succ', Nat.mod_mul]
    simp

theorem lowBytes_ofBytes (bs : Bytes) : lowBytes bs.length (ofBytes bs) = bs := by
  induction bs with
  | nil => rfl
  | cons b bs ih =>
    have hb := b.toNat_lt
    have hlow : (b.toNat + 256 * ofBytes bs).toUInt8 = b := by
      rw [← toUInt8_mod, Nat.add_mul_mod_self_left, Nat.mod_eq_of_lt hb]
      exact UInt8.ofNat_toNat
    have hrest : (b.toNat + 256 * ofBytes bs) / 256 = ofBytes bs := by omega
    rw [List.length_cons, ofBytes_cons, lowBytes_succ, hlow, hrest, ih]

/-! ## Packing -/

/-- The accumulator holds the low bits of what is still to be written. -/
theorem packFrom_eq (w : ℕ) {pending filled : ℕ} (vs : List ℕ) (hp : pending < 2 ^ filled)
    (hf : filled < 8) (hv : ∀ v ∈ vs, v < 2 ^ w) :
    packFrom w pending filled vs =
      lowBytes ((filled + w * vs.length) / 8) (pending + 2 ^ filled * number w vs) := by
  induction vs generalizing pending filled with
  | nil =>
    rw [List.length_nil, Nat.mul_zero, Nat.add_zero, Nat.div_eq_of_lt hf]
    rfl
  | cons v vs ih =>
    rw [List.forall_mem_cons] at hv
    have hor : pending ||| (v <<< filled) = pending + 2 ^ filled * v := by
      rw [Nat.or_comm, ← Nat.shiftLeft_add_eq_or_of_lt hp, Nat.shiftLeft_eq]
      ring
    -- `k` whole bytes leave the accumulator, and `r` bits stay
    obtain ⟨k, r, hk, hr, hkr⟩ : ∃ k r, (filled + w) / 8 = k ∧ (filled + w) % 8 = r ∧
        filled + w = 8 * k + r := ⟨_, _, rfl, rfl, (Nat.div_add_mod _ _).symm⟩
    have hr8 : r < 8 := by omega
    have hsplit : 2 ^ filled * 2 ^ w = 256 ^ k * 2 ^ r := by
      rw [← pow_add, hkr, pow_add, pow_mul]
      rfl
    have hlt : pending + 2 ^ filled * v < 256 ^ k * 2 ^ r := by
      rw [← hsplit]
      calc pending + 2 ^ filled * v < 2 ^ filled * (v + 1) := by rw [Nat.mul_succ]; omega
        _ ≤ 2 ^ filled * 2 ^ w := Nat.mul_le_mul_left _ hv.1
    have hall : pending + 2 ^ filled * number w (v :: vs) =
        pending + 2 ^ filled * v + 256 ^ k * (2 ^ r * number w vs) := by
      rw [number, Nat.mod_eq_of_lt hv.1, Nat.mul_add, ← Nat.mul_assoc, hsplit]
      ring
    have hpos : 0 < 256 ^ k := by positivity
    have hshift : (pending + 2 ^ filled * v) >>> (8 * k) = (pending + 2 ^ filled * v) / 256 ^ k := by
      rw [Nat.shiftRight_eq_div_pow, pow_mul]
      rfl
    have hlen : (filled + w * (v :: vs).length) / 8 = k + (r + w * vs.length) / 8 := by
      rw [List.length_cons, Nat.mul_succ]
      omega
    rw [hlen, hall, lowBytes_add, Nat.add_mul_div_left _ _ hpos,
      lowBytes_congr (Nat.add_mul_mod_self_left _ _ _)]
    simp only [packFrom, hor, hk, hr, hshift]
    rw [ih (Nat.div_lt_of_lt_mul hlt) hr8 hv.2]

/-- **Packing writes the bytes of one large number.** -/
theorem pack_eq (w : ℕ) (vs : List ℕ) :
    pack w vs = lowBytes (w * vs.length / 8) (number w vs) := by
  have hv : ∀ v ∈ vs.map (· % 2 ^ w), v < 2 ^ w := by
    intro v hv
    obtain ⟨u, -, rfl⟩ := List.mem_map.1 hv
    exact Nat.mod_lt _ (by positivity)
  have h := @packFrom_eq w 0 0 (vs.map (· % 2 ^ w)) Nat.one_pos (by norm_num) hv
  rw [number_map_mod, List.length_map, Nat.zero_add, Nat.zero_add, pow_zero, Nat.one_mul] at h
  rw [← h, pack, Nat.one_shiftLeft]

/-! ## Unpacking -/

/-- The accumulator holds the low bits of what is still to be read. -/
theorem unpackFrom_eq {w count pending filled : ℕ} {bs : Bytes} (hp : pending < 2 ^ filled) :
    unpackFrom w (2 ^ w) count pending filled bs =
      (List.range count).map fun i => (pending + 2 ^ filled * ofBytes bs) / 2 ^ (w * i) % 2 ^ w := by
  induction count generalizing pending filled bs with
  | zero => rfl
  | succ count ih =>
    let k := (w - filled + 7) / 8
    obtain ⟨taken, htaken⟩ : ∃ n, ofBytes (bs.take k) = n := ⟨_, rfl⟩
    obtain ⟨rest, hrest⟩ : ∃ n, ofBytes (bs.drop k) = n := ⟨_, rfl⟩
    have hlt : taken < 256 ^ k := by
      rw [← htaken]
      exact (ofBytes_lt _).trans_le (Nat.pow_le_pow_right (by norm_num) (List.length_take_le _ _))
    have hbs : ofBytes bs = taken + 256 ^ k * rest := by
      rw [← htaken, ← hrest]
      by_cases hl : k ≤ bs.length
      · conv_lhs => rw [← List.take_append_drop k bs, ofBytes_append, List.length_take_of_le hl]
      · rw [List.take_of_length_le (by omega), List.drop_of_length_le (by omega)]
        rfl
    have hor : pending ||| (taken <<< filled) = pending + 2 ^ filled * taken := by
      rw [Nat.or_comm, ← Nat.shiftLeft_add_eq_or_of_lt hp, Nat.shiftLeft_eq]
      ring
    have hfull : 2 ^ filled * 256 ^ k = 2 ^ w * 2 ^ (filled + 8 * k - w) := by
      rw [show (256 : ℕ) = 2 ^ 8 from rfl, ← pow_mul, ← pow_add, ← pow_add]
      congr 1
      omega
    have hall : pending + 2 ^ filled * ofBytes bs =
        pending + 2 ^ filled * taken + 2 ^ w * (2 ^ (filled + 8 * k - w) * rest) := by
      rw [hbs, ← Nat.mul_assoc (2 ^ w), ← hfull]
      ring
    have hnext : (pending + 2 ^ filled * taken) >>> w < 2 ^ (filled + 8 * k - w) := by
      rw [Nat.shiftRight_eq_div_pow]
      refine Nat.div_lt_of_lt_mul ?_
      rw [← hfull]
      calc pending + 2 ^ filled * taken < 2 ^ filled * (taken + 1) := by rw [Nat.mul_succ]; omega
        _ ≤ 2 ^ filled * 256 ^ k := Nat.mul_le_mul_left _ hlt
    rw [unpackFrom, List.range_succ_eq_map, List.map_cons, List.map_map]
    change (pending ||| (ofBytes (bs.take k) <<< filled)) % 2 ^ w ::
      unpackFrom w (2 ^ w) count ((pending ||| (ofBytes (bs.take k) <<< filled)) >>> w)
        (filled + 8 * k - w) (bs.drop k) = _
    rw [htaken, hor, ih hnext, hrest, hall]
    congr 1
    · rw [Nat.mul_zero, pow_zero, Nat.div_one, Nat.add_mul_mod_self_left]
    · refine List.map_congr_left fun i _ => ?_
      rw [Function.comp_apply, Nat.succ_eq_add_one, Nat.mul_succ, Nat.add_comm (w * i), pow_add,
        ← Nat.div_div_eq_div_mul, Nat.add_mul_div_left _ _ (by positivity), Nat.shiftRight_eq_div_pow]

/-- **Unpacking reads the digits of one large number.** -/
theorem unpack_eq (w count : ℕ) (bs : Bytes) :
    unpack w count bs = (List.range count).map fun i => ofBytes bs / 2 ^ (w * i) % 2 ^ w := by
  rw [unpack, Nat.one_shiftLeft, unpackFrom_eq Nat.one_pos]
  simp

theorem unpack_pack (w : ℕ) (vs : List ℕ) (h : 8 ∣ w * vs.length) :
    unpack w vs.length (pack w vs) = vs.map (· % 2 ^ w) := by
  obtain ⟨k, hk⟩ := h
  have hfull : (256 : ℕ) ^ k = 2 ^ (w * vs.length) := by
    rw [hk, pow_mul]
    rfl
  rw [unpack_eq, pack_eq, hk, Nat.mul_div_cancel_left _ (by norm_num), ofBytes_lowBytes, hfull,
    Nat.mod_eq_of_lt (number_lt w vs)]
  refine List.ext_getElem (by simp) fun i hi hi' => ?_
  rw [List.getElem_map, List.getElem_range, List.getElem_map]
  exact number_div_mod w vs i (by simpa using hi')

/-- **What was unpacked is packed again**, if the bytes hold whole numbers. -/
theorem pack_unpack (w n : ℕ) (bs : Bytes) (h : 8 * bs.length = w * n) :
    pack w (unpack w n bs) = bs := by
  have hfull : (256 : ℕ) ^ bs.length = 2 ^ (w * n) := by
    rw [← h, pow_mul]
    rfl
  have hlen : w * n / 8 = bs.length := by omega
  have hlt : ofBytes bs < 2 ^ (w * n) := hfull ▸ ofBytes_lt bs
  rw [pack_eq, length_unpack, unpack_eq, number_digits, hlen, Nat.mod_eq_of_lt hlt,
    lowBytes_ofBytes]

end LatticeSignature.BitStream
