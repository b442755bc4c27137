import LatticeSignature.Proofs.Checked.Residue
import LatticeSignature.Proofs.Poly

/-!
# The checked transform

The transform in place: a layer goes through its blocks, fetching one power of the root for each, and
a block through its butterflies, each of which replaces two numbers. Numbers grow by less than `q` in
each layer of the transform and double in each layer of the inverse, whose last sums lie a thousandth
below `2 ^ 31`.

* `Transform.checkedLayer`: a layer, for any butterfly; **`Transform.checkedLayer_eq`**: what it
  leaves if each butterfly puts two numbers of a vector in place.
* `Transform.checkedForwardFrom_eq`, `Transform.checkedInverseUpTo_eq`: all layers.
* **`Poly.checkedTransform_eq`**, **`Poly.checkedInverseTransform_eq`**.
-/

namespace LatticeSignature

open Checked Residue

namespace Transform

/-! ## A layer in place -/

section Layer

variable (next : ℕ → Checked (ℕ × Int32))
  (butterfly : Int32 → ℕ → ℕ → Vector Int32 256 → Checked (Vector Int32 256)) (s : ℕ)

/-- Block `b` of layer `s`: `next` moves the counter of the powers and fetches one, and `butterfly`
replaces the numbers at a position and `2 ^ s` behind it. -/
def checkedBlock (b : ℕ) (state : ℕ × Vector Int32 256) : Checked (ℕ × Vector Int32 256) := do
  let (k, zeta) ← next state.1
  let a ← loop (fun t => butterfly zeta (2 ^ s) (b * (2 * 2 ^ s) + t)) (2 ^ s) state.2
  return (k, a)

/-- Layer `s` in place. -/
def checkedLayer : ℕ × Vector Int32 256 → Checked (ℕ × Vector Int32 256) :=
  loop (checkedBlock next butterfly s) (2 ^ (7 - s))

end Layer

/-- The number of butterflies before the one that replaces number `i`. -/
def rank (len i : ℕ) : ℕ := i / len / 2 * len + i % len

/-- The numbers of `new` as far as the first `count` butterflies replaced those of `old`. -/
def replaced (new old : Vector Int32 256) (len count : ℕ) : Vector Int32 256 :=
  .ofFn fun i => if rank len i < count then new.get i else old.get i

section Layer

variable {len i j : ℕ} {new old : Vector Int32 256}

theorem rank_of_block {b t : ℕ} (ht : t < len) : rank len (b * (2 * len) + t) = b * len + t := by
  have hlen : 0 < len := by omega
  unfold rank
  rw [← mul_assoc, Nat.mul_add_mod', Nat.mod_eq_of_lt ht, Nat.mul_comm (b * 2), Nat.mul_add_div hlen,
    Nat.div_eq_of_lt ht, Nat.add_zero, Nat.mul_div_cancel b Nat.two_pos]

theorem rank_eq_iff (hlow : j % (2 * len) < len) : rank len i = rank len j ↔ i = j ∨ i = j + len := by
  have hlen : 0 < len := by omega
  have hj : j / len = 2 * (j / (2 * len)) := (Butterfly.low_position hlow).1
  have hi : i / len = 2 * (i / len / 2) ∨ i / len = 2 * (i / len / 2) + 1 := by omega
  have hdiv (x : ℕ) : len * (x / len) + x % len = x := Nat.div_add_mod x len
  constructor
  · intro h
    have hmod : i % len = j % len := by
      simpa [rank, Nat.mul_add_mod', Nat.mod_mod] using congrArg (· % len) h
    have hhalf : i / len / 2 = j / len / 2 := by
      have := congrArg (· / len) h
      simpa [rank, Nat.mul_comm _ len, Nat.mul_add_div hlen, Nat.div_eq_of_lt (Nat.mod_lt _ hlen)]
        using this
    rcases hi with hi | hi
    · have hq : i / len = j / len := by omega
      exact Or.inl (by rw [← hdiv i, ← hdiv j, hq, hmod])
    · have hq : i / len = j / len + 1 := by omega
      exact Or.inr (by rw [← hdiv i, hq, hmod, Nat.mul_add, mul_one]; have := hdiv j; omega)
  · rintro (rfl | rfl)
    · rfl
    · unfold rank
      rw [Nat.add_mod_right, Nat.add_div_right j hlen, show (j / len).succ / 2 = j / len / 2 by omega]

theorem replaced_zero : replaced new old len 0 = old := by
  ext i hi
  simp only [replaced, Vector.getElem_ofFn, Nat.not_lt_zero, if_false]
  rfl

theorem replaced_all (hi : ∀ i < 256, rank len i < j) : replaced new old len j = new := by
  ext i h
  simp only [replaced, Vector.getElem_ofFn, hi i h, if_true]
  rfl

theorem getElem_replaced (hi : i < 256) {count : ℕ} (h : count ≤ rank len i) :
    (replaced new old len count)[i] = old[i] := by
  simp only [replaced, Vector.getElem_ofFn]
  exact if_neg (by omega)

theorem replaced_succ (hlow : j % (2 * len) < len) (hlt : j + len < 256) :
    ((replaced new old len (rank len j)).set (j + len) new[j + len]).set j new[j] =
      replaced new old len (rank len j + 1) := by
  ext i hi
  have hiff := rank_eq_iff (i := i) hlow
  simp only [replaced, Vector.getElem_set, Vector.getElem_ofFn]
  split
  · next h =>
    subst h
    rw [if_pos (Nat.lt_succ_self _)]
    rfl
  · split
    · next h =>
      subst h
      rw [if_pos (by rw [hiff.2 (Or.inr rfl)]; exact Nat.lt_succ_self _)]
      rfl
    · have hne : rank len i ≠ rank len j := fun h => by have := hiff.1 h; omega
      exact if_congr ⟨fun h => by omega, fun h => by omega⟩ rfl rfl

theorem rank_lt {s : ℕ} (hs : s < 8) (hi : i < 256) : rank (2 ^ s) i < 2 ^ (7 - s) * 2 ^ s := by
  have hlen := Nat.two_pow_pos s
  have hblock : i / 2 ^ s / 2 < 2 ^ (7 - s) := by
    rw [Nat.div_div_eq_div_mul, ← pow_succ]
    exact Butterfly.block_lt hs hi
  have hmod := Nat.mod_lt i hlen
  unfold rank
  calc i / 2 ^ s / 2 * 2 ^ s + i % 2 ^ s < (i / 2 ^ s / 2 + 1) * 2 ^ s := by
        rw [Nat.succ_mul]
        omega
    _ ≤ 2 ^ (7 - s) * 2 ^ s := Nat.mul_le_mul_right _ hblock

theorem block_position {s b t : ℕ} (hs : s < 8) (hb : b < 2 ^ (7 - s)) (ht : t < 2 ^ s) :
    (b * (2 * 2 ^ s) + t) % (2 * 2 ^ s) = t ∧ (b * (2 * 2 ^ s) + t) / (2 * 2 ^ s) = b ∧
      b * (2 * 2 ^ s) + t + 2 ^ s < 256 := by
  have ht' : t < 2 * 2 ^ s := by omega
  have hall : 2 ^ (7 - s) * (2 * 2 ^ s) = 256 := by
    rw [← pow_succ', ← pow_add, show 7 - s + (s + 1) = 8 by omega]
    norm_num
  have hend : (b + 1) * (2 * 2 ^ s) ≤ 2 ^ (7 - s) * (2 * 2 ^ s) := Nat.mul_le_mul_right _ hb
  refine ⟨?_, ?_, ?_⟩
  · rw [Nat.mul_add_mod', Nat.mod_eq_of_lt ht']
  · rw [Nat.mul_comm, Nat.mul_add_div (by omega), Nat.div_eq_of_lt ht', Nat.add_zero]
  · rw [Nat.succ_mul] at hend
    omega

variable {next : ℕ → Checked (ℕ × Int32)}
  {butterfly : Int32 → ℕ → ℕ → Vector Int32 256 → Checked (Vector Int32 256)} {s : ℕ}

/-- **A layer in place** turns `old` into `new` if each of its butterflies does so with its two
numbers. -/
theorem checkedLayer_eq (hs : s < 8) (counter : ℕ → ℕ) (zeta : ℕ → Int32)
    (hnext : ∀ b < 2 ^ (7 - s), next (counter b) = .ok (counter (b + 1), zeta b))
    (hbutterfly : ∀ (j : ℕ) (a : Vector Int32 256) (_ : j % (2 * 2 ^ s) < 2 ^ s)
      (hlt : j + 2 ^ s < 256), a[j] = old[j] → a[j + 2 ^ s] = old[j + 2 ^ s] →
      butterfly (zeta (j / (2 * 2 ^ s))) (2 ^ s) j a =
        .ok ((a.set (j + 2 ^ s) new[j + 2 ^ s]).set j new[j])) :
    checkedLayer next butterfly s (counter 0, old) = .ok (counter (2 ^ (7 - s)), new) := by
  have hblock : ∀ b < 2 ^ (7 - s), checkedBlock next butterfly s b
      (counter b, replaced new old (2 ^ s) (b * 2 ^ s)) =
        .ok (counter (b + 1), replaced new old (2 ^ s) ((b + 1) * 2 ^ s)) := by
    intro b hb
    have hloop : loop (fun t => butterfly (zeta b) (2 ^ s) (b * (2 * 2 ^ s) + t)) (2 ^ s)
        (replaced new old (2 ^ s) (b * 2 ^ s)) =
          .ok (replaced new old (2 ^ s) (b * 2 ^ s + 2 ^ s)) := by
      refine loop_eq (fun t => replaced new old (2 ^ s) (b * 2 ^ s + t)) fun t ht => ?_
      obtain ⟨hmod, hdiv, hlt⟩ := block_position hs hb ht
      have hlow : (b * (2 * 2 ^ s) + t) % (2 * 2 ^ s) < 2 ^ s := by rwa [hmod]
      have hpartner := (rank_eq_iff hlow).2 (Or.inr rfl)
      have h := hbutterfly _ _ hlow hlt (@getElem_replaced _ _ new old _ _ le_rfl)
        (getElem_replaced _ hpartner.ge)
      rw [hdiv] at h
      rw [← Nat.add_assoc, ← rank_of_block ht, ← replaced_succ hlow hlt]
      exact h
    unfold checkedBlock
    rw [bind_of_eq (hnext b hb)]
    simp only
    rw [bind_of_eq hloop, ← Nat.succ_mul]
    rfl
  have hlayer := loop_eq (fun b => (counter b, replaced new old (2 ^ s) (b * 2 ^ s))) hblock
  simp only [Nat.zero_mul, replaced_zero, replaced_all fun i => rank_lt hs] at hlayer
  exact hlayer

end Layer

/-! ## The layers of the transform -/

/-- Puts the sum and the difference of the number at `j` and a multiple of the number behind it in
their places. -/
def forwardButterfly (zeta : Int32) (len j : ℕ) (a : Vector Int32 256) :
    Checked (Vector Int32 256) := do
  let high ← get a (j + len)
  let t ← checkedMulMontgomery zeta high
  let low ← get a j
  let difference ← sub low t
  let a ← set a (j + len) difference
  let low ← get a j
  let sum ← add low t
  set a j sum

/-- The power after the one at `k`. -/
def nextPower (k : ℕ) : Checked (ℕ × Int32) := do
  let zeta ← get zetas (k + 1)
  return (k + 1, zeta)

/-- Layers `s - 1` down to 0. -/
def checkedForwardFrom : ℕ → ℕ × Vector Int32 256 → Checked (ℕ × Vector Int32 256)
  | 0, state => .ok state
  | s + 1, state => do
    let state ← checkedLayer nextPower forwardButterfly s state
    checkedForwardFrom s state

theorem forwardButterfly_eq {zeta : Int32} {len j : ℕ} {a : Vector Int32 256} (hlen : 0 < len)
    (hlt : j + len < 256) (ht : |(mulMontgomery zeta a[j + len]).toInt| ≤ 8380416)
    (ha : |a[j].toInt| ≤ 2139103231) :
    forwardButterfly zeta len j a = .ok ((a.set (j + len) (a[j] - mulMontgomery zeta a[j + len])).set j
      (a[j] + mulMontgomery zeta a[j + len])) := by
  have hj : j < 256 := by omega
  obtain ⟨ha, ha'⟩ := abs_le.1 ha
  obtain ⟨ht, ht'⟩ := abs_le.1 ht
  have hmul := checkedMulMontgomery_eq zeta a[j + len]
  obtain ⟨hsub, -⟩ := sub_eq (a := a[j]) (b := mulMontgomery zeta a[j + len]) rfl rfl
    (by linarith) (by linarith)
  obtain ⟨hadd, -⟩ := add_eq (a := a[j]) (b := mulMontgomery zeta a[j + len]) rfl rfl
    (by linarith) (by linarith)
  unfold forwardButterfly
  rw [bind_of_eq (get_eq a hlt), bind_of_eq hmul, bind_of_eq (get_eq a hj), bind_of_eq hsub,
    bind_of_eq (set_eq a hlt _), bind_of_eq (get_eq _ hj), Vector.getElem_set_ne _ _ (by omega),
    bind_of_eq hadd]
  exact set_eq _ hj _

/-- The power at `k`, which is zero behind the table. -/
def powerAt (k : ℕ) : Int32 := zetas.toList.getD k 0

theorem powerAt_eq {k : ℕ} (hk : k < 256) : powerAt k = zetas.get ⟨k, hk⟩ := by
  have hlt : k < zetas.toList.length := Vector.length_toList.symm ▸ hk
  rw [powerAt, List.getD_eq_getElem?_getD, List.getElem?_eq_getElem hlt]
  rfl

theorem get_zetas {k : ℕ} (hk : k < 256) : get zetas k = .ok (powerAt k) := by
  rw [get_eq _ hk, powerAt_eq hk]
  rfl

theorem block_power_lt {s b : ℕ} (hs : s < 8) (hb : b < 2 ^ (7 - s)) : 2 ^ (7 - s) + b < 256 := by
  have hpow : 2 ^ (7 - s) ≤ 2 ^ 7 := Nat.pow_le_pow_right (by norm_num) (by omega)
  omega

theorem forwardLayer_pair {s j : ℕ} (hs : s < 8) (v : Vector Int32 256)
    (hlow : j % (2 * 2 ^ s) < 2 ^ s) (hlt : j + 2 ^ s < 256) :
    (forwardLayer ⟨s, hs⟩ v)[j] =
        v[j] + mulMontgomery (powerAt (2 ^ (7 - s) + j / (2 * 2 ^ s))) v[j + 2 ^ s] ∧
      (forwardLayer ⟨s, hs⟩ v)[j + 2 ^ s] =
        v[j] - mulMontgomery (powerAt (2 ^ (7 - s) + j / (2 * 2 ^ s))) v[j + 2 ^ s] := by
  have hj : j < 256 := by omega
  obtain ⟨-, -, hmod, hdiv⟩ := Butterfly.low_position hlow
  rw [← pow_succ'] at *
  have hhigh : ¬(j + 2 ^ s) % 2 ^ (s + 1) < 2 ^ s := by omega
  have hk : 2 ^ (7 - s) + j / 2 ^ (s + 1) < 256 := zeta_lt ⟨s, hs⟩ hj
  constructor
  · rw [getElem_forwardLayer_of_lt ⟨s, hs⟩ v hj hlow hlt, powerAt_eq hk]
  · rw [getElem_forwardLayer_of_le ⟨s, hs⟩ v hlt hhigh, powerAt_eq hk]
    simp only [Nat.add_sub_cancel, hdiv]

theorem checkedForwardLayer_eq {s : ℕ} (hs : s < 8) {v : Vector Int32 256}
    (hv : ∀ (i : ℕ) (_ : i < 256), |v[i].toInt| ≤ 2139103231) :
    checkedLayer nextPower forwardButterfly s (2 ^ (7 - s) - 1, v) =
      .ok (2 ^ (8 - s) - 1, forwardLayer ⟨s, hs⟩ v) := by
  have hpos : 0 < 2 ^ (7 - s) := Nat.two_pow_pos _
  have hnext : ∀ b < 2 ^ (7 - s), nextPower (2 ^ (7 - s) - 1 + b) =
      .ok (2 ^ (7 - s) - 1 + (b + 1), powerAt (2 ^ (7 - s) + b)) := by
    intro b hb
    rw [show 2 ^ (7 - s) - 1 + (b + 1) = 2 ^ (7 - s) + b by omega]
    unfold nextPower
    rw [show 2 ^ (7 - s) - 1 + b + 1 = 2 ^ (7 - s) + b by omega,
      bind_of_eq (get_zetas (block_power_lt hs hb))]
    rfl
  have hend : 2 ^ (8 - s) - 1 = 2 ^ (7 - s) - 1 + 2 ^ (7 - s) := by
    rw [show 8 - s = 7 - s + 1 by omega, pow_succ]
    omega
  rw [hend]
  refine checkedLayer_eq hs (fun b => 2 ^ (7 - s) - 1 + b) (fun b => powerAt (2 ^ (7 - s) + b)) hnext
    fun j a hlow hlt hj hpartner => ?_
  obtain ⟨hfst, hsnd⟩ := forwardLayer_pair hs v hlow hlt
  have hk : 2 ^ (7 - s) + j / (2 * 2 ^ s) < 256 := by
    rw [← pow_succ']
    exact zeta_lt ⟨s, hs⟩ (by omega)
  have hk' : 2 ^ (7 - s) + j / (2 * 2 ^ s) ≠ 0 := by positivity
  simp only [hfst, hsnd, ← hj, ← hpartner, powerAt_eq hk]
  exact forwardButterfly_eq (Nat.two_pow_pos s) hlt ((mulMontgomery_zetas hk' _).2.trans (by norm_num))
    (by rw [hj]; exact hv j (by omega))

theorem checkedForwardFrom_eq (s : ℕ) (hs : s ≤ 8) (v : Vector Int32 256) {B : ℤ}
    (hB : ∀ (i : ℕ) (_ : i < 256), |v[i].toInt| ≤ B) (hroom : B + s * 8380416 ≤ 2147483647) :
    checkedForwardFrom s (2 ^ (8 - s) - 1, v) = .ok (255, forwardFrom s hs v) := by
  induction s generalizing v B with
  | zero => rfl
  | succ s ih =>
    have hlast : (0 : ℤ) ≤ s := s.cast_nonneg
    push_cast at hroom
    have hlayer := checkedForwardLayer_eq (by exact hs) fun i hi => (hB i hi).trans (by linarith)
    have hbound := forwardLayer_spec ⟨s, hs⟩ v hB (by linarith)
    unfold checkedForwardFrom
    rw [show 8 - (s + 1) = 7 - s by omega, bind_of_eq hlayer]
    exact ih (by omega) _ (fun i hi => (hbound i hi).2) (by linarith)

/-! ## The layers of the inverse -/

/-- Puts the sum of the numbers at `j` and behind it, and a multiple of their difference, in their
places. -/
def inverseButterfly (zeta : Int32) (len j : ℕ) (a : Vector Int32 256) :
    Checked (Vector Int32 256) := do
  let low ← get a j
  let high ← get a (j + len)
  let sum ← add low high
  let a ← set a j sum
  let high ← get a (j + len)
  let difference ← sub low high
  let a ← set a (j + len) difference
  let difference ← get a (j + len)
  let t ← checkedMulMontgomery zeta difference
  set a (j + len) t

/-- The negated power before the one at `k`. -/
def previousPower (k : ℕ) : Checked (ℕ × Int32) := do
  let k ← minus k 1
  let zeta ← get zetas k
  let zeta ← neg zeta
  return (k, zeta)

/-- Layers 0 up to `s - 1`. -/
def checkedInverseUpTo : ℕ → ℕ × Vector Int32 256 → Checked (ℕ × Vector Int32 256)
  | 0, state => .ok state
  | s + 1, state => do
    let state ← checkedInverseUpTo s state
    checkedLayer previousPower inverseButterfly s state

theorem inverseButterfly_eq {zeta : Int32} {len j : ℕ} {a : Vector Int32 256} (hlen : 0 < len)
    (hlt : j + len < 256) (ha : |a[j].toInt| ≤ 1073741823) (hb : |a[j + len].toInt| ≤ 1073741823) :
    inverseButterfly zeta len j a = .ok ((a.set (j + len) (mulMontgomery zeta (a[j] - a[j + len]))).set j
      (a[j] + a[j + len])) := by
  have hj : j < 256 := by omega
  obtain ⟨ha, ha'⟩ := abs_le.1 ha
  obtain ⟨hb, hb'⟩ := abs_le.1 hb
  have hmul := checkedMulMontgomery_eq zeta (a[j] - a[j + len])
  obtain ⟨hadd, -⟩ := add_eq (a := a[j]) (b := a[j + len]) rfl rfl (by linarith) (by linarith)
  obtain ⟨hsub, -⟩ := sub_eq (a := a[j]) (b := a[j + len]) rfl rfl (by linarith) (by linarith)
  unfold inverseButterfly
  rw [bind_of_eq (get_eq a hj), bind_of_eq (get_eq a hlt), bind_of_eq hadd, bind_of_eq (set_eq a hj _),
    bind_of_eq (get_eq _ hlt), Vector.getElem_set_ne _ _ (by omega), bind_of_eq hsub,
    bind_of_eq (set_eq _ hlt _), bind_of_eq (get_eq _ hlt), Vector.getElem_set_self, bind_of_eq hmul,
    set_eq _ hlt, Vector.set_set, Vector.set_comm _ _ (by omega)]

theorem inverseLayer_pair {s j : ℕ} (hs : s < 8) (v : Vector Int32 256)
    (hlow : j % (2 * 2 ^ s) < 2 ^ s) (hlt : j + 2 ^ s < 256) :
    (inverseLayer ⟨s, hs⟩ v)[j] = v[j] + v[j + 2 ^ s] ∧
      (inverseLayer ⟨s, hs⟩ v)[j + 2 ^ s] =
        mulMontgomery (-powerAt (2 ^ (8 - s) - 1 - j / (2 * 2 ^ s))) (v[j] - v[j + 2 ^ s]) := by
  have hj : j < 256 := by omega
  obtain ⟨-, -, hmod, hdiv⟩ := Butterfly.low_position hlow
  rw [← pow_succ'] at *
  have hhigh : ¬(j + 2 ^ s) % 2 ^ (s + 1) < 2 ^ s := by omega
  constructor
  · exact getElem_inverseLayer_of_lt ⟨s, hs⟩ v hj hlow hlt
  · rw [getElem_inverseLayer_of_le ⟨s, hs⟩ v hlt hhigh, powerAt_eq (inverseZeta_lt ⟨s, hs⟩ hj)]
    simp only [Nat.add_sub_cancel, hdiv]

theorem checkedInverseLayer_eq {s : ℕ} (hs : s < 8) {v : Vector Int32 256}
    (hv : ∀ (i : ℕ) (_ : i < 256), |v[i].toInt| ≤ 1073741823) :
    checkedLayer previousPower inverseButterfly s (2 ^ (8 - s), v) =
      .ok (2 ^ (7 - s), inverseLayer ⟨s, hs⟩ v) := by
  have hdouble : 2 ^ (8 - s) = 2 ^ (7 - s) + 2 ^ (7 - s) := by
    rw [show 8 - s = 7 - s + 1 by omega, pow_succ, Nat.mul_two]
  have hsmall {b : ℕ} (hb : b < 2 ^ (7 - s)) :
      ∃ hk : 2 ^ (8 - s) - 1 - b < 256, |(zetas.get ⟨2 ^ (8 - s) - 1 - b, hk⟩).toInt| ≤ 4190208 := by
    have hpow : 2 ^ (7 - s) ≤ 2 ^ 7 := Nat.pow_le_pow_right (by norm_num) (by omega)
    exact ⟨by omega, abs_zetas (by simp only; omega)⟩
  have hnext : ∀ b < 2 ^ (7 - s), previousPower (2 ^ (8 - s) - b) =
      .ok (2 ^ (8 - s) - (b + 1), -powerAt (2 ^ (8 - s) - 1 - b)) := by
    intro b hb
    obtain ⟨hk, hz⟩ := hsmall hb
    rw [← powerAt_eq hk] at hz
    have hneg := neg_eq (a := powerAt (2 ^ (8 - s) - 1 - b)) (by linarith [(abs_le.1 hz).1])
    unfold previousPower
    rw [bind_of_eq (minus_eq (by omega)), show 2 ^ (8 - s) - b - 1 = 2 ^ (8 - s) - 1 - b by omega,
      bind_of_eq (get_zetas hk), bind_of_eq hneg, show 2 ^ (8 - s) - (b + 1) = 2 ^ (8 - s) - 1 - b by omega]
    rfl
  rw [← Nat.sub_eq_of_eq_add hdouble]
  refine checkedLayer_eq hs (fun b => 2 ^ (8 - s) - b) (fun b => -powerAt (2 ^ (8 - s) - 1 - b)) hnext
    fun j a hlow hlt hj hpartner => ?_
  obtain ⟨hfst, hsnd⟩ := inverseLayer_pair hs v hlow hlt
  obtain ⟨hk, -⟩ := hsmall (b := j / (2 * 2 ^ s))
    (by rw [← pow_succ']; exact Butterfly.block_lt hs (by omega))
  simp only [hfst, hsnd, ← hj, ← hpartner, powerAt_eq hk]
  exact inverseButterfly_eq (Nat.two_pow_pos s) hlt (by rw [hj]; exact hv j (by omega))
    (by rw [hpartner]; exact hv _ hlt)

theorem checkedInverseUpTo_eq (s : ℕ) (hs : s ≤ 8) (v : Vector Int32 256)
    (hB : ∀ (i : ℕ) (_ : i < 256), |v[i].toInt| ≤ 8380416) :
    checkedInverseUpTo s (256, v) = .ok (2 ^ (8 - s), inverseUpTo s hs v) := by
  induction s with
  | zero => rfl
  | succ s ih =>
    have hpow : (2 : ℤ) ^ s ≤ 2 ^ 7 := pow_le_pow_right₀ (by norm_num) (by omega)
    have hbound := inverseUpTo_spec s (by omega) v hB
    unfold checkedInverseUpTo
    rw [bind_of_eq (ih (by omega)), show 8 - (s + 1) = 7 - s by omega]
    exact checkedInverseLayer_eq hs fun i hi => (hbound i hi).2.trans (by linarith)

end Transform

namespace Poly

open Transform

def checkedTransform (p : Poly .plain) : Checked (Poly .transformed) := do
  let (_, a) ← checkedForwardFrom 8 (0, p.coeffs)
  return ⟨a⟩

def checkedInverseTransform (p : Poly .transformed) : Checked (Poly .plain) := do
  let (_, a) ← checkedInverseUpTo 8 (256, p.coeffs)
  let a ← tabulate fun i => checkedMulMontgomery inverseScale (a.get i)
  return ⟨a⟩

/-- **The transform does not fault** where eight more multiples of `q` fit. -/
theorem checkedTransform_eq {p : Poly .plain} {B : ℤ} (hp : p.Within (-B) B) (hB : B ≤ 2080440319) :
    p.checkedTransform = .ok p.transform := by
  have h : checkedForwardFrom 8 (0, p.coeffs) = .ok (255, forwardFrom 8 le_rfl p.coeffs) :=
    checkedForwardFrom_eq 8 le_rfl p.coeffs (fun i hi => abs_le.2 (hp ⟨i, hi⟩)) (by norm_num; linarith)
  unfold checkedTransform
  rw [bind_of_eq h]
  rfl

/-- **The inverse does not fault** on numbers below `q`. -/
theorem checkedInverseTransform_eq {p : Poly .transformed} (hp : p.Within (-8380416) 8380416) :
    p.checkedInverseTransform = .ok p.inverseTransform := by
  have h := checkedInverseUpTo_eq 8 le_rfl p.coeffs fun i hi => abs_le.2 (hp ⟨i, hi⟩)
  unfold checkedInverseTransform
  rw [bind_of_eq h]
  simp only
  rw [bind_of_eq (tabulate_eq fun i => checkedMulMontgomery_eq _ _)]
  refine congrArg Except.ok (Poly.ext_getElem fun i hi => ?_)
  simp only [inverseTransform, ← getElem_coeffs, Vector.getElem_ofFn, Vector.getElem_map]
  rfl

end Poly

end LatticeSignature
